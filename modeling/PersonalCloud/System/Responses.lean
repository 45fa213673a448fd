import PersonalCloud.Client.Browser
import PersonalCloud.System.Scope

/-! The responses on one connection of a browser: whether each is read where the one before it
ends. -/
namespace PersonalCloud

open Proto Channel Store Http

namespace WebUi

/-- A request is answered with one of the statuses, or its connection is closed. -/
def WebHandled.IsAnswered (r : WebHandled) : Prop :=
  match r.response with
  | none => r.go = false
  | some (status, _) => status ∈ kStatuses

theorem serveGetFile_isAnswered (env : SessionEnv) (user name input : Bytes) :
    (serveGetFile env user name input).IsAnswered := by
  unfold serveGetFile
  split
  · exact (by decide : 404 ∈ kStatuses)
  · exact (by decide : 200 ∈ kStatuses)

theorem servePutFile_isAnswered (env : SessionEnv) (user name query : Bytes) (size : ℕ)
    (input : Bytes) : (servePutFile env user name query size input).IsAnswered := by
  have hin : 201 ∈ kStatuses ∧ 400 ∈ kStatuses ∧ 500 ∈ kStatuses := by decide
  unfold servePutFile
  split
  · exact hin.2.1
  · split
    · rfl
    · split_ifs
      · rfl
      · exact hin.2.2
    · split_ifs
      · rfl
      · exact hin.2.2
      · exact hin.1

theorem serveDeleteFile_isAnswered (env : SessionEnv) (user name input : Bytes) :
    (serveDeleteFile env user name input).IsAnswered := by
  simp only [serveDeleteFile, WebHandled.IsAnswered, respond]
  split_ifs
  · decide
  · decide

theorem serveUser_isAnswered (env : WebEnv) (user : Bytes) (request : HttpRequest)
    (input : Bytes) : (serveUser env user request input).IsAnswered := by
  unfold serveUser
  split_ifs
  · exact (by decide : 200 ∈ kStatuses)
  · exact serveGetFile_isAnswered _ _ _ _
  · exact servePutFile_isAnswered _ _ _ _ _ _
  · exact serveDeleteFile_isAnswered _ _ _ _
  · exact (by decide : 404 ∈ kStatuses)

theorem handle_isAnswered (env : WebEnv) (entries : BrowserSessions) (request : HttpRequest)
    (input : Bytes) : (handle env entries request input).2.IsAnswered := by
  have hin : 200 ∈ kStatuses ∧ 400 ∈ kStatuses ∧ 401 ∈ kStatuses ∧ 500 ∈ kStatuses := by decide
  rw [handle_snd]
  split_ifs
  · exact hin.1
  · simp only [serveLogin]
    split_ifs
    · exact hin.2.1
    · rfl
    · split
      · split_ifs
        · exact hin.2.2.1
        · exact hin.2.2.2
        · exact hin.1
      · exact hin.2.1
  · exact hin.1
  · cases (authenticate env.clock entries request).2 with
    | none => exact hin.2.2.1
    | some user => exact serveUser_isAnswered env user request input
  · exact serveUser_isAnswered env [] request input

/-- A file is sent to its end where files can be read. -/
def WebHandled.IsWhole (r : WebHandled) : Prop :=
  ∀ status b, r.response = some (status, .content b) → r.go = true

theorem WebHandled.IsWhole.reply {r : WebHandled} (h : r.IsWhole) (webPage : Bytes) :
    ∃ text, r.reply webPage = some text := by
  unfold WebHandled.reply
  split
  · exact ⟨_, rfl⟩
  · next status b hresponse => exact ⟨_, if_pos (h status b hresponse)⟩
  · exact ⟨_, rfl⟩

theorem serveUser_isWhole {env : WebEnv} (h : env.reads = true) (user : Bytes)
    (request : HttpRequest) (input : Bytes) : (serveUser env user request input).IsWhole := by
  unfold serveUser
  split_ifs
  · exact fun _ _ _ => rfl
  · intro status b hresponse
    simp only [serveGetFile] at hresponse ⊢
    split at hresponse
    · simp [respond] at hresponse
    · exact h
  · intro status b hresponse
    simp only [servePutFile] at hresponse
    split at hresponse
    · simp [respond] at hresponse
    · split at hresponse
      · contradiction
      · split_ifs at hresponse
        simp [respond] at hresponse
      · split_ifs at hresponse
        · simp [respond] at hresponse
        · simp [respond] at hresponse
  · exact fun _ _ _ => rfl
  · exact fun _ _ _ => rfl

theorem handle_isWhole {env : WebEnv} (h : env.reads = true) (entries : BrowserSessions)
    (request : HttpRequest) (input : Bytes) : (handle env entries request input).2.IsWhole := by
  rw [handle_snd]
  split_ifs
  · exact fun _ _ _ => rfl
  · intro status b hresponse
    simp only [serveLogin] at hresponse
    split_ifs at hresponse
    · simp [respond] at hresponse
    · split at hresponse
      · split_ifs at hresponse <;> simp [respond] at hresponse
      · simp [respond] at hresponse
  · exact fun _ _ _ => rfl
  · cases (authenticate env.clock entries request).2 with
    | none => exact fun _ _ _ => rfl
    | some user => exact serveUser_isWhole h user request input
  · exact serveUser_isWhole h [] request input

theorem handle_head {env : WebEnv} {entries : BrowserSessions} {request : HttpRequest}
    (h : request.method = ascii "HEAD") (input : Bytes) :
    ∃ status text, (handle env entries request input).2.response = some (status, .error text) := by
  have hne : ascii "HEAD" ≠ ascii "GET" ∧ ascii "HEAD" ≠ ascii "POST" ∧
      ascii "HEAD" ≠ ascii "PUT" ∧ ascii "HEAD" ≠ ascii "DELETE" := by decide
  have huser (user : Bytes) : (serveUser env user request input).response =
      some (404, .error "no such route") := by
    simp [serveUser, h, hne, respond]
  rw [handle_snd]
  simp only [h, hne.1, hne.2.1, false_and, ↓reduceIte]
  split_ifs
  · cases (authenticate env.clock entries request).2 with
    | none => exact ⟨401, "not signed in", rfl⟩
    | some user => exact ⟨404, "no such route", huser user⟩
  · exact ⟨404, "no such route", huser []⟩

end WebUi

namespace Page

def fetchReplies : List Bytes → Bytes → Option (List Reply × Bytes)
  | [], input => some ([], input)
  | method :: methods, input =>
      (fetchReply method input).bind fun r =>
        (fetchReplies methods r.2).map fun rs => (r.1 :: rs.1, rs.2)

/-- What is to be read of a response to a request of the method. -/
def Reply.asked (method : Bytes) (r : Reply) : Reply :=
  if method = ascii "HEAD" then ⟨r.status, []⟩ else r

theorem statusOf_brace (cs : Bytes) : statusOf (123 :: cs) = none := by
  have hspace : isSpace 123 = false := rfl
  obtain ⟨w, fs, hsplit⟩ : ∃ w fs, split (123 :: cs) = (123 :: w) :: fs := by
    refine ⟨Tokens.word isSpace cs, Tokens.fieldsFrom isSpace cs.length
      (Tokens.afterWord isSpace (123 :: cs)), ?_⟩
    simp [split, Tokens.fields, Tokens.fieldsFrom, Tokens.skip, Tokens.word, hspace]
  have hversion : (ascii "HTTP/1.").isPrefixOf (123 :: w) = false := rfl
  rw [statusOf, hsplit]
  cases fs <;> simp [hversion]

theorem fetchReply_brace (method rest : Bytes) : fetchReply method (123 :: rest) = none := by
  rw [fetchReply]
  cases hread : Message.read (bodiless method) (123 :: rest) with
  | none => rfl
  | some r =>
    obtain ⟨more, hline⟩ := Message.readLine_of_read hread
    obtain ⟨cs, hfirst⟩ := Message.readLine_first (by decide) (by decide) hline
    rw [Option.bind_some, hfirst, statusOf_brace]
    rfl

theorem fetchReplies_brace (methods : List Bytes) (rest : Bytes) (rs : List Reply) :
    fetchReplies methods (123 :: rest) ≠ some (rs, []) := by
  cases methods with
  | nil => simp [fetchReplies]
  | cons method methods => simp [fetchReplies, fetchReply_brace]

end Page

namespace WebUi

/-- The method of a request and the response to it. -/
def answeredWith (webPage : Bytes) (x : Bytes × HttpRequest × WebHandled) :
    Option (Bytes × Page.Reply) :=
  x.2.2.response.map fun r => (x.2.1.method, ⟨r.1, r.2.bytes webPage⟩)

/-- A request that was handled, as it was. -/
structure WasHandled (x : Bytes × HttpRequest × WebHandled) : Prop where
  answered : x.2.2.IsAnswered
  head : x.2.1.method = ascii "HEAD" → ∃ status text, x.2.2.response = some (status, .error text)

theorem wasHandled_runHttpFrom (found : ℕ → WebEnv × BrowserSessions) (fuel k : ℕ)
    (line input : Bytes) : ∀ x ∈ runHttpFrom found fuel k line input, WasHandled x := by
  induction fuel generalizing k line input with
  | zero =>
    intro x hx
    contradiction
  | succ fuel ih =>
    intro x hx
    rw [runHttpFrom] at hx
    split at hx
    · contradiction
    · next request body hread =>
      rcases List.mem_cons.mp hx with rfl | hx
      · exact ⟨handle_isAnswered _ _ _ _, fun hmethod => handle_head hmethod body⟩
      · split_ifs at hx
        · split at hx
          · contradiction
          · split_ifs at hx
            · exact ih _ _ _ x hx
            · contradiction
        · contradiction

section Read

variable {webPage : Bytes} {x : Bytes × HttpRequest × WebHandled}
  {xs : List (Bytes × HttpRequest × WebHandled)} {text : Bytes}

/-- What one handled request puts on the connection is read as the response to it. -/
theorem fetchReply_reply (hx : WasHandled x) (htext : x.2.2.reply webPage = some text)
    {method : Bytes} {r : Page.Reply} (hr : answeredWith webPage x = some (method, r))
    (more : Bytes) : Page.fetchReply method (text ++ more) =
      some (r.asked method, if method = ascii "HEAD" then r.body ++ more else more) := by
  obtain ⟨⟨status, body⟩, hresponse, hpair⟩ := Option.map_eq_some_iff.mp hr
  obtain ⟨rfl, rfl⟩ := Prod.mk.inj hpair
  have hstatus : status ∈ kStatuses := by
    have hanswered := hx.answered
    rwa [WebHandled.IsAnswered, hresponse] at hanswered
  rw [reply_of_response hresponse htext, Page.fetchReply_send hstatus, Page.Reply.asked]
  split_ifs <;> rfl

theorem reply_of_not_answered (htext : x.2.2.reply webPage = some text)
    (hr : answeredWith webPage x = none) : text = [] := by
  rw [WebHandled.reply, Option.map_eq_none_iff.mp hr] at htext
  exact (Option.some.inj htext).symm

/-- The response to a `HEAD` request comes with an object behind its head. -/
theorem body_of_head (hx : WasHandled x) {r : Page.Reply}
    (hr : answeredWith webPage x = some (ascii "HEAD", r)) : ∃ rest, r.body = 123 :: rest := by
  obtain ⟨⟨status, body⟩, hresponse, hpair⟩ := Option.map_eq_some_iff.mp hr
  obtain ⟨hmethod, rfl⟩ := Prod.mk.inj hpair
  obtain ⟨status', text, herror⟩ := hx.head hmethod
  rw [hresponse] at herror
  obtain ⟨-, rfl⟩ := Prod.mk.inj (Option.some.inj herror)
  exact ⟨_, rfl⟩

theorem fetchReplies_iff {texts : List Bytes} (hxs : ∀ x ∈ xs, WasHandled x)
    (h : List.Forall₂ (fun x text => x.2.2.reply webPage = some text) xs texts) :
    Page.fetchReplies ((xs.filterMap (answeredWith webPage)).map Prod.fst) texts.flatten =
        some ((xs.filterMap (answeredWith webPage)).map fun a => a.2.asked a.1, []) ↔
      ∀ a ∈ xs.filterMap (answeredWith webPage), a.1 ≠ ascii "HEAD" := by
  induction h with
  | nil => simp [Page.fetchReplies]
  | @cons x text xs texts htext htail ih =>
    rw [List.forall_mem_cons] at hxs
    have ih := ih hxs.2
    cases hr : answeredWith webPage x with
    | none =>
      rw [List.filterMap_cons_none hr, List.flatten_cons, reply_of_not_answered htext hr]
      exact ih
    | some a =>
      obtain ⟨method, r⟩ := a
      rw [List.filterMap_cons_some hr, List.forall_mem_cons, List.map_cons, List.map_cons,
        List.flatten_cons, Page.fetchReplies, fetchReply_reply hxs.1 htext hr, Option.bind_some]
      by_cases hhead : method = ascii "HEAD"
      · subst hhead
        -- what is left of the response stands in front of the next one
        obtain ⟨rest, hbody⟩ := body_of_head hxs.1 hr
        have hlost := Page.fetchReplies_brace
          ((xs.filterMap (answeredWith webPage)).map Prod.fst) (rest ++ texts.flatten)
        simp only [↓reduceIte, ne_eq, not_true, false_and, iff_false, hbody, List.cons_append]
        intro heq
        obtain ⟨rs, hrs, hpair⟩ := Option.map_eq_some_iff.mp heq
        exact hlost rs.1 (hrs.trans (congrArg some (Prod.ext rfl (Prod.mk.inj hpair).2)))
      · simp only [ne_eq, hhead, not_false_eq_true, true_and, ↓reduceIte]
        rw [← ih]
        constructor
        · intro heq
          obtain ⟨rs, hrs, hpair⟩ := Option.map_eq_some_iff.mp heq
          obtain ⟨hcons, hrest⟩ := Prod.mk.inj hpair
          rw [hrs, ← (List.cons.inj hcons).2, ← hrest]
        · intro heq
          rw [heq]
          rfl

end Read

/-- On a connection of a browser on which no file is cut off, the responses are read back one by
one, and nothing is left, exactly if nothing is asked for with `HEAD`: to such a request a body is
sent that the browser does not expect. -/
theorem runHttp_replies (found : ℕ → WebEnv × BrowserSessions) (webPage line input : Bytes)
    {texts : List Bytes} (h : List.Forall₂ (fun x text => x.2.2.reply webPage = some text)
      (runHttp found line input) texts) :
    let answered := (runHttp found line input).filterMap (answeredWith webPage)
    Page.fetchReplies (answered.map Prod.fst) texts.flatten =
        some (answered.map fun a => a.2.asked a.1, []) ↔
      ∀ a ∈ answered, a.1 ≠ ascii "HEAD" :=
  fetchReplies_iff (wasHandled_runHttpFrom found _ _ line input) h

/-- A list is asked for without a session, and then the page. -/
theorem runHttp_replies_signedOut :
    Page.fetchReplies [ascii "GET", ascii "GET"]
        ((WebBody.error "not signed in").send [] 401 ++ WebBody.page.send [] 200) =
      some ([⟨401, jsonError (ascii "not signed in")⟩, ⟨200, []⟩], []) := by
  let found : ℕ → WebEnv × BrowserSessions := fun _ => (⟨calmEnv, 0, 0, []⟩, fun _ => none)
  have h : List.Forall₂ (fun x text => x.2.2.reply [] = some text)
      (runHttp found (ascii "GET /api/files HTTP/1.1") (ascii "\nGET / HTTP/1.1\n\n"))
      [(WebBody.error "not signed in").send [] 401, WebBody.page.send [] 200] :=
    .cons rfl (.cons rfl .nil)
  have hread := (runHttp_replies found [] (ascii "GET /api/files HTTP/1.1")
    (ascii "\nGET / HTTP/1.1\n\n") h).mpr (by decide +kernel)
  rw [List.flatten_cons, List.flatten_cons, List.flatten_nil, List.append_nil] at hread
  exact hread

end WebUi

end PersonalCloud
