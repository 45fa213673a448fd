import PersonalCloud.System.Browsing

/-! Several requests on one connection of a browser: whether the next request line is read where
the body of the last request ends. -/
namespace PersonalCloud

open Proto Channel Store Http

namespace WebUi

/-- A request of a user is answered, the connection goes on, and nothing has looked at the body: a
listing, a removal, or a download that can be read. -/
def IgnoresBody (env : WebEnv) (user : Bytes) (request : HttpRequest) : Prop :=
  (request.method = ascii "GET" ∧ request.path = ascii "/api/files") ∨
  (kFilesPrefix.isPrefixOf request.path = true ∧
    (request.method = ascii "DELETE" ∨
      request.method = ascii "GET" ∧
        ((filePath user (request.path.drop kFilesPrefix.length)).bind env.disk.content = none ∨
          env.reads = true)))

/-- The same for everyone: also the page is served without a look at the body. -/
def LeavesBody (env : WebEnv) (entries : BrowserSessions) (request : HttpRequest) : Prop :=
  (request.method = ascii "GET" ∧ (request.path = ascii "/" ∨ request.path = ascii "/index.html")) ∨
  ∃ user, (authenticate env.clock entries request).2 = some user ∧ IgnoresBody env user request

theorem servePutFile_rest {e : SessionEnv} {user name query : Bytes} {size : ℕ} {input : Bytes}
    (h : (servePutFile e user name query size input).go = true) :
    (servePutFile e user name query size input).rest = input.drop size := by
  unfold servePutFile at h ⊢
  split
  · rfl
  · next hpath =>
    simp only [hpath] at h
    split
    · next hreceives => simp [hreceives] at h
    · split_ifs <;> rfl
    · split_ifs <;> rfl

theorem serveLogin_rest (env : WebEnv) (entries : BrowserSessions) (request : HttpRequest)
    (input : Bytes) : (serveLogin env entries request input).2.rest = drainBody request input := by
  simp only [serveLogin]
  split_ifs
  · rfl
  · rfl
  · split
    · split_ifs <;> rfl
    · rfl

/-- A route of a user ignores the body, or takes it off the input if the connection goes on. -/
theorem serveUser_cases (env : WebEnv) (user : Bytes) (request : HttpRequest) (input : Bytes) :
    (IgnoresBody env user request ∧ (serveUser env user request input).go = true ∧
      (serveUser env user request input).rest = input) ∨
    (¬ IgnoresBody env user request ∧ ((serveUser env user request input).go = true →
      (serveUser env user request input).rest = drainBody request input)) := by
  have hmethods : ascii "PUT" ≠ ascii "GET" ∧ ascii "PUT" ≠ ascii "DELETE" ∧
      ascii "GET" ≠ ascii "DELETE" := by decide
  unfold serveUser
  split_ifs with hlist hget hput hdelete
  · exact .inl ⟨.inl hlist, rfl, rfl⟩
  · simp only [serveGetFile]
    cases hcontent : (filePath user (request.path.drop kFilesPrefix.length)).bind
        env.disk.content with
    | none => exact .inl ⟨.inr ⟨hget.1, .inr ⟨hget.2, .inl hcontent⟩⟩, rfl, rfl⟩
    | some content =>
      cases hreads : env.reads with
      | true => exact .inl ⟨.inr ⟨hget.1, .inr ⟨hget.2, .inr hreads⟩⟩, rfl, rfl⟩
      | false =>
        refine .inr ⟨?_, fun h => absurd h Bool.false_ne_true⟩
        rintro (h | ⟨-, h | ⟨-, h | h⟩⟩)
        · exact hlist h
        · exact hmethods.2.2 (hget.2.symm.trans h)
        · rw [hcontent] at h
          exact absurd h (Option.some_ne_none content)
        · exact absurd (hreads.symm.trans h) Bool.false_ne_true
  · refine .inr ⟨?_, servePutFile_rest⟩
    rintro (h | ⟨-, h | ⟨h, -⟩⟩)
    · exact hmethods.1 (hput.2.symm.trans h.1)
    · exact hmethods.2.1 (hput.2.symm.trans h)
    · exact hmethods.1 (hput.2.symm.trans h)
  · exact .inl ⟨.inr ⟨hdelete.1, .inl hdelete.2⟩, rfl, rfl⟩
  · refine .inr ⟨?_, fun _ => rfl⟩
    rintro (h | ⟨hp, h | ⟨h, -⟩⟩)
    · exact hlist h
    · exact hdelete ⟨hp, h⟩
    · exact hget ⟨hp, h⟩

theorem handle_cases (env : WebEnv) (entries : BrowserSessions) (request : HttpRequest)
    (input : Bytes) :
    (LeavesBody env entries request ∧ (handle env entries request input).2.go = true ∧
      (handle env entries request input).2.rest = input) ∨
    (¬ LeavesBody env entries request ∧ ((handle env entries request input).2.go = true →
      (handle env entries request input).2.rest = drainBody request input)) := by
  have hmethods : ascii "POST" ≠ ascii "GET" ∧ ascii "POST" ≠ ascii "DELETE" := by decide
  -- a `POST` is no route that ignores its body
  have hpost : request.method = ascii "POST" → ¬ LeavesBody env entries request := by
    rintro hmethod (h | ⟨user, -, h | ⟨-, h | ⟨h, -⟩⟩⟩)
    · exact hmethods.1 (hmethod.symm.trans h.1)
    · exact hmethods.1 (hmethod.symm.trans h.1)
    · exact hmethods.2 (hmethod.symm.trans h)
    · exact hmethods.1 (hmethod.symm.trans h)
  unfold handle
  split_ifs with hpage hlogin hlogout hapi
  · exact .inl ⟨.inl hpage, rfl, rfl⟩
  · exact .inr ⟨hpost hlogin.1, fun _ => serveLogin_rest env entries request input⟩
  · exact .inr ⟨hpost hlogout.1, fun _ => rfl⟩
  · split
    · next entries' hauth =>
      refine .inr ⟨?_, fun _ => rfl⟩
      rintro (h | ⟨user, huser, -⟩)
      · exact hpage h
      · rw [hauth] at huser
        exact absurd huser.symm (Option.some_ne_none user)
    · next entries' user hauth =>
      rcases serveUser_cases env user request input with ⟨hignores, hgo, hrest⟩ | ⟨hnot, hrest⟩
      · exact .inl ⟨.inr ⟨user, by rw [hauth], hignores⟩, hgo, hrest⟩
      · refine .inr ⟨?_, hrest⟩
        rintro (h | ⟨user', huser, h⟩)
        · exact hpage h
        · rw [hauth] at huser
          exact hnot (Option.some.inj huser ▸ h)
  · have hpre : ∀ p : Bytes, (kFilesPrefix.isPrefixOf p = true ∨ p = ascii "/api/files") →
        kApiPrefix.isPrefixOf p = true := by
      have hfiles : kApiPrefix <+: kFilesPrefix := by decide
      rintro p (h | rfl)
      · exact List.isPrefixOf_iff_prefix.mpr (hfiles.trans (List.isPrefixOf_iff_prefix.mp h))
      · decide
    have hnot : ∀ user, ¬ IgnoresBody env user request := by
      rintro user (h | h)
      · exact hapi (hpre _ (.inr h.2))
      · exact hapi (hpre _ (.inl h.1))
    refine .inr ⟨?_, ?_⟩
    · rintro (h | ⟨user, -, h⟩)
      · exact hpage h
      · exact hnot user h
    · rcases serveUser_cases env [] request input with ⟨h, -⟩ | ⟨-, hrest⟩
      · exact absurd h (hnot [])
      · exact hrest

theorem handle_rest {env : WebEnv} {entries : BrowserSessions} {request : HttpRequest}
    {body : Bytes} (next : Bytes) (hlen : body.length = request.contentLength.toNat)
    (h : body = [] ∨ ¬ LeavesBody env entries request)
    (hgo : (handle env entries request (body ++ next)).2.go = true) :
    (handle env entries request (body ++ next)).2.rest = next := by
  have hdrain : drainBody request (body ++ next) = next := by
    rw [drainBody, ← hlen, List.drop_left]
  rcases handle_cases env entries request (body ++ next) with ⟨hleaves, -, hrest⟩ | ⟨-, hrest⟩
  · rw [hrest, h.resolve_right (not_not_intro hleaves)]
    rfl
  · exact (hrest hgo).trans hdrain

/-- When a request is handled and the connection goes on, the next request is read right behind
the body, unless there is a body and the route ignores it. -/
theorem handle_rest_iff (env : WebEnv) (entries : BrowserSessions) {request : HttpRequest}
    {body next : Bytes} (hlen : body.length = request.contentLength.toNat) :
    ((handle env entries request (body ++ next)).2.go = true →
      (handle env entries request (body ++ next)).2.rest = next) ↔
    body = [] ∨ ¬ LeavesBody env entries request := by
  constructor
  · intro h
    rcases handle_cases env entries request (body ++ next) with ⟨-, hgo, hrest⟩ | ⟨hnot, -⟩
    · exact .inl (List.append_left_eq_self.mp (hrest.symm.trans (h hgo)))
    · exact .inr hnot
  · exact handle_rest next hlen

/-- A rejected sign-in keeps its place. -/
theorem handle_rest_of_login :
    let body := ascii "\x7b\x7d"
    let request : HttpRequest := ⟨ascii "POST", ascii "/api/login", [], ∅, 2⟩
    let r := (handle ⟨calmEnv, 0, 0, []⟩ (fun _ => none) request (body ++ ascii "GET / HTTP/1.1")).2
    r.go = true → r.rest = ascii "GET / HTTP/1.1" := by
  have hpost : ascii "POST" ≠ ascii "GET" := by decide
  have hpre : ascii "Bearer " ≠ [] := by decide
  refine (handle_rest_iff _ _ (by decide)).mpr (.inr ?_)
  rintro (h | ⟨user, huser, -⟩)
  · exact hpost h.1
  · exact absurd huser (by
      simp [authenticate, bearer, HttpRequest.header, hpre])

/-- Where a route ignores the body: the page is asked for with a body, and the body is then taken
for a request. -/
theorem body_taken_for_request :
    let line := ascii "GET / HTTP/1.1"
    let body := ascii "GET /index.html HTTP/1.1

"
    let input := ascii "Content-Length: 26

" ++ body
    let env : WebEnv := ⟨calmEnv, 0, 0, []⟩
    (readRequest line input).toOption.map (fun r => (r.1.contentLength.toNat, r.2)) =
      some (body.length, body) ∧
    (runHttp (fun _ => (env, fun _ => none)) line input).map Prod.fst =
      [line, ascii "GET /index.html HTTP/1.1"] := by
  decide +kernel

/-- A request as a client sends it. -/
structure Sent where
  message : Message
  method : Bytes
  target : Bytes
  version : Bytes
  line : split message.first = [method, target, version]
  isRequest : IsRequest message
  announces : Announces message
  size : message.body.length ≤ Config.kMaxTransferSize.toNat

namespace Sent

def request (r : Sent) : HttpRequest := requestOf r.method r.target r.message

theorem length_body (r : Sent) : r.message.body.length = r.request.contentLength.toNat :=
  (UInt64.toNat_ofNat_of_lt' (r.size.trans_lt Config.kMaxTransferSize.toNat_lt)).symm

theorem read (r : Sent) (rest : Bytes) : ∃ input,
    readLine (r.message.text ++ rest) = some (r.message.first, input) ∧
      readRequest r.message.first input = .ok (r.request, r.message.body ++ rest) :=
  readRequest_message r.isRequest r.announces r.size r.line rest

end Sent

theorem runHttpFrom_requests (found : ℕ → WebEnv × BrowserSessions) (fuel k : ℕ) {rs : List Sent}
    {line input : Bytes}
    (hinput : readLine (rs.flatMap fun r => r.message.text) = some (line, input))
    (hleft : ∀ n r, rs[n]? = some r →
      r.message.body = [] ∨ ¬ LeavesBody (found (k + n)).1 (found (k + n)).2 r.request) :
    (runHttpFrom found fuel k line input).map (fun x => (x.1, x.2.1)) <+:
      rs.map fun r => (r.message.first, r.request) := by
  induction fuel generalizing k rs line input with
  | zero => exact List.nil_prefix
  | succ fuel ih =>
    cases rs with
    | nil => contradiction
    | cons r rs =>
      let next := rs.flatMap fun r => r.message.text
      obtain ⟨input', hline, hread⟩ := r.read next
      rw [List.flatMap_cons, hline] at hinput
      obtain ⟨rfl, rfl⟩ := Prod.mk.inj (Option.some.inj hinput)
      have hfirst : r.message.body = [] ∨ ¬ LeavesBody (found k).1 (found k).2 r.request :=
        hleft 0 r rfl
      simp only [runHttpFrom, hread, List.map_cons, List.prefix_cons_inj]
      split_ifs with hgo
      · rw [handle_rest next r.length_body hfirst hgo]
        split
        · exact List.nil_prefix
        · next line' input' hnext =>
          split_ifs
          · refine ih (k + 1) hnext fun n r' hr' => ?_
            rw [show k + 1 + n = k + (n + 1) by omega]
            exact hleft (n + 1) r' (by simpa using hr')
          · exact List.nil_prefix
      · exact List.nil_prefix

/-- As long as no body is left behind, nothing is handled on a connection but the requests that were
sent, each as it was sent and in this order. -/
theorem runHttp_requests (found : ℕ → WebEnv × BrowserSessions) {rs : List Sent}
    {line input : Bytes}
    (hinput : readLine (rs.flatMap fun r => r.message.text) = some (line, input))
    (hleft : ∀ n r, rs[n]? = some r →
      r.message.body = [] ∨ ¬ LeavesBody (found n).1 (found n).2 r.request) :
    (runHttp found line input).map (fun x => (x.1, x.2.1)) <+:
      rs.map fun r => (r.message.first, r.request) :=
  runHttpFrom_requests found _ 0 hinput fun n r hr => by simpa using hleft n r hr

def sampleSent : List Sent :=
  [{ message := ⟨ascii "POST /api/login HTTP/1.1", [(ascii "Content-Length", ascii "2")],
        ascii "\x7b\x7d"⟩
     method := ascii "POST"
     target := ascii "/api/login"
     version := ascii "HTTP/1.1"
     line := by decide
     isRequest := ⟨by decide, by decide, by decide, by decide, by decide⟩
     announces := .inl (by decide)
     size := by decide },
   { message := ⟨ascii "GET / HTTP/1.1", [], []⟩
     method := ascii "GET"
     target := ascii "/"
     version := ascii "HTTP/1.1"
     line := by decide
     isRequest := ⟨by decide, by decide, by decide, by decide, by decide⟩
     announces := .inr ⟨rfl, rfl⟩
     size := by decide }]

theorem runHttp_requests_sample :
    (runHttp (fun _ => (⟨calmEnv, 0, 0, []⟩, fun _ => none)) (ascii "POST /api/login HTTP/1.1")
      (ascii "Content-Length: 2\x0d\x0a\x0d\x0a\x7b\x7dGET / HTTP/1.1\x0d\x0a\x0d\x0a")).map
        (fun x => (x.1, x.2.1)) <+: sampleSent.map fun r => (r.message.first, r.request) := by
  have hbearer : ∀ r ∈ sampleSent, bearer r.request = none := by decide +kernel
  refine runHttp_requests _ (by decide) ?_
  rintro (_ | _ | n) r hr
  · obtain rfl := Option.some.inj hr
    refine .inr ?_
    rintro (h | ⟨user, huser, -⟩)
    · exact absurd h.1 (by decide)
    · simp [authenticate, hbearer _ List.mem_cons_self] at huser
  · obtain rfl := Option.some.inj hr
    exact .inl rfl
  · exact absurd hr (by simp [sampleSent])

end WebUi

end PersonalCloud
