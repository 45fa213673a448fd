import PersonalCloud.Client.Dialogues
import PersonalCloud.System.Reports

/-! Every question of a client at the server: how it is answered, what the answer has to do with what
is kept, and what is made of a question that arrives in part. -/
namespace PersonalCloud

open Proto Channel Store

namespace Remote

/-- The account a sign-in is for, by the fields the server takes of the line. -/
def signedName (user password : Bytes) : Option Bytes :=
  match split (sp user password) with
  | [name, _] => some name
  | _ => none

def Call.IsUpload : Call → Prop
  | putFile .. | putChunk .. => True
  | _ => False

namespace Question

/-- The line fits, and a body follows only where it will be received. -/
def Sendable (s : SessionState) : Question → Prop
  | login user password => IsPlain (loginLine user password) ∧
      (loginLine user password).length ≤ Config.kMaxLineLen
  | auth token => IsPlain (sp kAuth token) ∧ (sp kAuth token).length ≤ Config.kMaxLineLen
  | call c => c.WellFormed ∧ c.line.length ≤ Config.kMaxLineLen ∧ (c.IsUpload → c.Permitted s)
  | _ => True

/-- Only a line of three fields signs in. -/
def Answers (a : Except String Reported) : Question → Prop
  | login user password => ∀ r, a = .ok r → (signedName user password).isSome
  | _ => True

def leads (s : SessionState) (a : Except String Reported) : Question → SessionState
  | login user password =>
      match a, signedName user password with
      | .ok _, some name => { s with user := name, loggedIn := true }
      | _, _ => s
  | auth _ =>
      match a with
      | .ok _ => { s with machineTrusted := true }
      | .error _ => s
  | _ => s

end Question

def protocol : Dialogue.Protocol Question (Except String Reported) SessionState where
  may s q := q.Sendable s
  answers _ q a := q.Answers a
  leads s q a := q.leads s a
  lost := Question.Lost

/-- A line the server handles: the surroundings, what the connection has proved, and what is behind
the line. -/
structure Moment where
  env : SessionEnv
  session : SessionState
  line : Bytes
  input : Bytes

namespace Moment

def handled (m : Moment) : Handled := Session.handle m.env m.session m.line m.input

def vault (m : Moment) : Vault := vaultOf m.env.disk

def request (m : Moment) : Vault.Request := Session.asks m.session m.env.now m.line m.input

end Moment

namespace Question

/-- The answer to a question is the truth: a call is told what the map holds or is refused, and a
sign-in is confirmed only with the right credentials. -/
def Truly (m : Moment) (a : Except String Reported) : Question → Prop
  | login user password => m.request = .other ∧ ∀ r, a = .ok r →
      ∃ name pw, split (sp user password) = [name, pw] ∧ m.env.verify name pw = true
  | auth token => m.request = .other ∧ ∀ r, a = .ok r → split token = [m.env.token]
  | call c =>
      (c.Permitted m.session ∧ m.request = c.request m.session.user m.env.now ∧
        (c = .quit ∨ ∃ res, m.vault.Answers m.request res ∧ a = .ok (reportOf res))) ∨
      (¬ c.Permitted m.session ∧ m.request = .other ∧ ∃ e, a = .error e)
  | _ => m.request = .other

/-- At this moment the question is answered: its line and its body are handled, and the reply is the
answer. -/
structure AnsweredAt (q : Question) (m : Moment) (a : Except String Reported) : Prop where
  line : m.line = q.line
  input : m.input = q.body
  rest : m.handled.rest = []
  reply : q.IsReply m.handled.reply a
  nonempty : m.handled.reply ≠ []
  answers : q.Answers a
  session : m.handled.session = q.leads m.session a
  truly : q.Truly m a

end Question

/-- Storage is sound and nothing is too much for a reply. -/
structure Moment.Fair (m : Moment) : Prop where
  sound : m.env.Sound
  notBefore : -2 ^ 63 ≤ m.env.now
  notAfter : m.env.now < 2 ^ 63
  readable : m.vault.Readable
  listing : m.line = kList → (listFiles m.env.disk m.session.user).length ≤ 1000000

variable {env : SessionEnv} {s : SessionState} {q : Question} {c : Call}

namespace Question

theorem isPlain_line (h : q.Sendable s) : IsPlain q.line := by
  cases q with
  | ping => exact (by decide : IsPlain kPing)
  | hello => exact (by decide : IsPlain (sp kHello Config.kProtocol))
  | login user password => exact h.1
  | auth token => exact h.1
  | call c => exact PersonalCloud.isPlain_line h.1

theorem length_line_le (h : q.Sendable s) : q.line.length ≤ Config.kMaxLineLen := by
  cases q with
  | ping => exact (by decide : kPing.length ≤ Config.kMaxLineLen)
  | hello => exact (by decide : (sp kHello Config.kProtocol).length ≤ Config.kMaxLineLen)
  | login user password => exact h.2
  | auth token => exact h.2
  | call c => exact h.2.1

theorem readLine_bytes (h : q.Sendable s) : readLine q.bytes = some (q.line, q.body) :=
  readLine_line (isPlain_line h) (length_line_le h) q.body

def moment (env : SessionEnv) (s : SessionState) (q : Question) : Moment := ⟨env, s, q.line, q.body⟩

variable {a : Except String Reported} {r : Handled} {l : Bytes}

theorem answeredAt_line (hhandled : (moment env s q).handled = r) (hrest : r.rest = [])
    (hreply : r.reply = sendLine l) (hisReply : q.IsReply (sendLine l) a) (hanswers : q.Answers a)
    (hsession : r.session = q.leads s a) (htruly : q.Truly (moment env s q) a) :
    q.AnsweredAt (moment env s q) a where
  line := rfl
  input := rfl
  rest := by rw [hhandled, hrest]
  reply := by rwa [hhandled, hreply]
  nonempty := by simp [hhandled, hreply, sendLine]
  answers := hanswers
  session := by rw [hhandled, hsession, moment]
  truly := htruly

theorem leads_error (s : SessionState) (e : String) (q : Question) : q.leads s (.error e) = s := by
  cases q <;> rfl

theorem answers_error (e : String) (q : Question) : q.Answers (.error e) := by
  cases q with
  | login user password => exact fun r hr => absurd hr (by simp)
  | ping | hello | auth | call => trivial

theorem exists_answeredAt_err (reason : Bytes) (hplain : IsPlain reason)
    (hlen : (sp kErr reason).length ≤ Config.kMaxLineLen) (hquit : q ≠ .call .quit)
    (hhandled : (moment env s q).handled = r) (hreply : r.reply = sendLine (sp kErr reason))
    (hrest : r.rest = []) (hsession : r.session = s)
    (htruly : ∀ e, q.Truly (moment env s q) (.error e)) :
    ∃ a, q.AnsweredAt (moment env s q) a := by
  obtain ⟨e, he⟩ := isReply_err hplain hlen hquit
  exact ⟨.error e, answeredAt_line hhandled hrest hreply he (answers_error e q)
    (by rw [hsession, leads_error]) (htruly e)⟩

theorem request_of_open {cmd : Bytes} {fs : List Bytes} (hline : split q.line = cmd :: fs)
    (hopen : Session.isOpenCommand cmd) : (moment env s q).request = .other := by
  rw [Moment.request, Session.asks, moment, Session.asksLine_of_open hline hopen]
  rfl

theorem answeredAt_ping (env : SessionEnv) (s : SessionState) :
    ping.AnsweredAt (moment env s ping) (.ok .confirmed) :=
  answeredAt_line (r := Session.answer s kPong []) rfl rfl rfl (isReply_line (by decide) rfl) trivial
    rfl rfl

theorem answeredAt_hello (env : SessionEnv) (s : SessionState) :
    hello.AnsweredAt (moment env s hello) (.ok .confirmed) :=
  answeredAt_line (r := Session.answer s (sp kOk Config.kProtocol) []) rfl rfl rfl
    (isReply_line (by decide) rfl) trivial rfl rfl

theorem exists_answeredAt_login (env : SessionEnv) (s : SessionState) (user password : Bytes) :
    ∃ a, (login user password).AnsweredAt (moment env s (login user password)) a := by
  have hline : split (loginLine user password) = kLogin :: split (sp user password) :=
    split_sp (by decide) _
  have hother : (moment env s (login user password)).request = .other :=
    request_of_open hline (.inr (.inr (.inr (.inl rfl))))
  have hhandled : (moment env s (login user password)).handled =
      Session.doLogin env s (kLogin :: split (sp user password)) [] :=
    Session.handle_login env s _ _ hline
  have htruly (e : String) :
      (login user password).Truly (moment env s (login user password)) (.error e) :=
    ⟨hother, by simp⟩
  unfold Session.doLogin at hhandled
  split at hhandled
  · next cmd name pw hfields =>
    have hfields : split (sp user password) = [name, pw] := (List.cons.inj hfields).2
    by_cases hverify : env.verify name pw = false
    · rw [if_pos hverify] at hhandled
      exact exists_answeredAt_err (ascii "bad-credentials") (by decide) (by decide)
        (by simp) hhandled rfl rfl rfl htruly
    rw [if_neg hverify] at hhandled
    by_cases hstorage : isValidUsername name = false ∨ env.ensures = false
    · rw [if_pos hstorage] at hhandled
      exact exists_answeredAt_err (ascii "account-storage") (by decide) (by decide)
        (by simp) hhandled rfl rfl rfl htruly
    · rw [if_neg hstorage] at hhandled
      have hname : signedName user password = some name := by rw [signedName, hfields]
      refine ⟨.ok .confirmed, answeredAt_line hhandled rfl rfl (isReply_line (by decide) rfl) ?_ ?_
        ⟨hother, fun _ _ => ⟨name, pw, hfields, by simpa [moment] using hverify⟩⟩⟩
      · simp [Answers, hname]
      · simp only [leads, hname]
        rfl
  · exact exists_answeredAt_err (ascii "malformed-login") (by decide) (by decide)
      (by simp) hhandled rfl rfl rfl htruly

theorem exists_answeredAt_auth (env : SessionEnv) (s : SessionState) (token : Bytes) :
    ∃ a, (auth token).AnsweredAt (moment env s (auth token)) a := by
  have hline : split (sp kAuth token) = kAuth :: split token := split_sp (by decide) _
  have hother : (moment env s (auth token)).request = .other :=
    request_of_open hline (.inr (.inr (.inr (.inr rfl))))
  have hhandled : (moment env s (auth token)).handled =
      Session.doAuth env s (kAuth :: split token) [] := Session.handle_auth env s _ _ hline
  have htruly (e : String) : (auth token).Truly (moment env s (auth token)) (.error e) :=
    ⟨hother, by simp⟩
  unfold Session.doAuth at hhandled
  split at hhandled
  · next cmd given hfields =>
    have hfields : split token = [given] := (List.cons.inj hfields).2
    by_cases hwrong : given ≠ env.token
    · rw [if_pos hwrong] at hhandled
      exact exists_answeredAt_err (ascii "bad-token") (by decide) (by decide) (by simp)
        hhandled rfl rfl rfl htruly
    · rw [if_neg hwrong] at hhandled
      refine ⟨.ok .confirmed, answeredAt_line hhandled rfl rfl (isReply_line (by decide) rfl) trivial
        rfl ⟨hother, fun _ _ => ?_⟩⟩
      rw [hfields, moment, not_not.mp hwrong]
  · exact exists_answeredAt_err (ascii "malformed-auth") (by decide) (by decide) (by simp)
      hhandled rfl rfl rfl htruly

theorem handle_not_permitted (hc : c.WellFormed) (hupload : ¬ c.IsUpload) (h : ¬ c.Permitted s)
    (input : Bytes) : ∃ reason, IsPlain reason ∧ (sp kErr reason).length ≤ Config.kMaxLineLen ∧
      Session.handle env s c.line input = Session.fail s reason input := by
  have hname {name : Bytes} (hlogin : ¬ s.loggedIn = false)
      (h : ¬ (s.loggedIn = true ∧ wireName name ≠ [])) : wireName name = [] :=
    not_not.mp fun hne => h ⟨by simpa using hlogin, hne⟩
  have hlogin : IsPlain (ascii "login-required") ∧
      (sp kErr (ascii "login-required")).length ≤ Config.kMaxLineLen := by decide
  have htoken : IsPlain (ascii "token-required") ∧
      (sp kErr (ascii "token-required")).length ≤ Config.kMaxLineLen := by decide
  cases c with
  | putFile | putChunk => exact absurd trivial hupload
  | quit => exact absurd trivial h
  | stat name =>
    rw [Call.line, statLine, Session.handle_stat]
    by_cases hno : s.loggedIn = false
    · exact ⟨_, hlogin.1, hlogin.2, if_pos hno⟩
    · rw [if_neg hno, Session.doStat, splitN_two (by decide), if_pos (hname hno h)]
      exact ⟨ascii "malformed-stat", by decide, by decide, rfl⟩
  | getFile name =>
    rw [Call.line, getFileLine, Session.handle_getFile]
    by_cases hno : s.loggedIn = false
    · exact ⟨_, hlogin.1, hlogin.2, if_pos hno⟩
    · rw [if_neg hno, Session.doGetFile, splitN_two (by decide), if_pos (hname hno h)]
      exact ⟨ascii "malformed-getfile", by decide, by decide, rfl⟩
  | delFile name =>
    rw [Call.line, delFileLine, Session.handle_delFile]
    by_cases hno : s.loggedIn = false
    · exact ⟨_, hlogin.1, hlogin.2, if_pos hno⟩
    · rw [if_neg hno, Session.doDelFile, splitN_two (by decide), if_pos (hname hno h)]
      exact ⟨ascii "malformed-delfile", by decide, by decide, rfl⟩
  | getChunk id =>
    have hno : s.machineTrusted = false := by
      by_contra hyes
      exact h ⟨hc, by simpa using hyes⟩
    rw [Call.line, getChunkLine, Session.handle_getChunk]
    exact ⟨_, htoken.1, htoken.2, if_pos hno⟩
  | delChunk id =>
    have hno : s.machineTrusted = false := by
      by_contra hyes
      exact h ⟨hc, by simpa using hyes⟩
    rw [Call.line, delChunkLine, Session.handle_delChunk]
    exact ⟨_, htoken.1, htoken.2, if_pos hno⟩
  | list =>
    rw [Call.line, Session.handle_list]
    exact ⟨_, hlogin.1, hlogin.2, if_pos (by simpa [Call.Permitted] using h)⟩

theorem replyTo_ne_err (res : Vault.Result) (reason : Bytes) :
    Session.replyTo res ≠ sendLine (sp kErr reason) := by
  have herr : (sendLine (sp kErr reason)).head? = some 69 := rfl
  intro h
  rw [← h] at herr
  cases res <;> exact absurd herr (by simp [Session.replyTo, sendLine, sp]; decide)

theorem asks_of_fail (henv : env.Sound) {line input reason : Bytes}
    (h : Session.handle env s line input = Session.fail s reason input) :
    Session.asks s env.now line input = .other := by
  by_contra hother
  obtain ⟨res, -, hreply⟩ := (Session.handle_serves henv s line input).answer.resolve_left hother
  rw [h] at hreply
  exact replyTo_ne_err res reason hreply.symm

theorem exists_answeredAt_not_permitted (henv : env.Sound) (hsend : (call c).Sendable s)
    (h : ¬ c.Permitted s) : ∃ a, (call c).AnsweredAt (moment env s (call c)) a := by
  obtain ⟨hc, -, hupload⟩ := hsend
  have hupload : ¬ c.IsUpload := fun hc => h (hupload hc)
  have hbody : c.body = [] := by
    cases c with
    | putFile | putChunk => exact absurd trivial hupload
    | stat | getFile | delFile | getChunk | delChunk | list | quit => rfl
  have hquit : call c ≠ call .quit := by
    rintro hq
    cases hq
    exact h trivial
  obtain ⟨reason, hplain, hlen, hfail⟩ := handle_not_permitted hc hupload h c.body
  exact exists_answeredAt_err reason hplain hlen hquit hfail rfl hbody rfl fun e =>
    .inr ⟨h, asks_of_fail henv hfail, e, rfl⟩

theorem exists_answeredAt_permitted (hfair : (moment env s (call c)).Fair)
    (hsend : (call c).Sendable s) (h : c.Permitted s) (hquit : c ≠ .quit) :
    ∃ a, (call c).AnsweredAt (moment env s (call c)) a := by
  obtain ⟨hc, -, -⟩ := hsend
  have hasks : Session.asks s env.now c.line c.body = c.request s.user env.now := by
    simpa using asks_line h env.now []
  have hsound : env.Sound := hfair.sound
  have hserves := Session.handle_serves hsound s c.line c.body
  rw [hasks] at hserves
  obtain ⟨res, hres, hreply⟩ := hserves.answer.resolve_left (by cases c <;> simp_all [Call.request])
  have hcount : ∀ l, c = .list → res = .listing l → l.length ≤ 1000000 := by
    rintro l rfl rfl
    obtain ⟨l', hl', hlisting⟩ := hres
    obtain rfl : l = l' := Vault.Result.listing.inj hl'
    rw [hlisting.unique (Vault.listing_listFiles env.disk s.user)]
    exact hfair.listing rfl
  have hreceive : c.receive (Session.replyTo res) = .ok (reportOf res, []) := by
    simpa using receive_replyTo hfair.readable (fun _ _ => Service.isSafeName_of_vaultOf) hcount hquit
      hres []
  rw [← hreply] at hreceive
  have hhears := isReply_receive hquit hreceive
  have haccepted : c.Accepted s := by
    cases c with
    | putFile => exact .inr h.1
    | putChunk => exact .inr h.2
    | stat | getFile | delFile | getChunk | delChunk | list | quit => exact .inl rfl
  have hrest : (Session.handle env s c.line (c.body ++ [])).rest = [] :=
    PersonalCloud.handle_rest hc haccepted []
  rw [List.append_nil] at hrest
  refine ⟨.ok (reportOf res), ⟨rfl, rfl, hrest, hhears, ?_, trivial, ?_, ?_⟩⟩
  · intro hempty
    have hlost := (hear_of_unread (q := call c) (b := []) rfl).1
    change (Session.handle env s c.line c.body).reply = [] at hempty
    rw [hempty] at hhears
    rw [hhears.hears] at hlost
    rcases hlost with ⟨e, he⟩ | ⟨hq, -⟩
    · contradiction
    · exact hquit (Question.call.inj hq)
  · exact handle_session hc c.body
  · exact .inl ⟨h, hasks, .inr ⟨res, by rw [Moment.request, moment]; exact hasks ▸ hres, rfl⟩⟩

theorem answeredAt_quit (env : SessionEnv) (s : SessionState) :
    (call .quit).AnsweredAt (moment env s (call .quit)) (.ok .confirmed) :=
  have hline : split (call .quit).line = [kQuit] := split_word (by decide)
  have hrequest : (moment env s (call .quit)).request = .other :=
    request_of_open hline (.inr (.inr (.inl rfl)))
  answeredAt_line (r := Session.hangUp s kBye []) (Session.handle_quit env s []) rfl rfl
    (isReply_line (by decide) rfl) trivial rfl (.inl ⟨trivial, hrequest, .inl rfl⟩)

/-- Every question that may be asked is answered, truly, and leaves nothing to be read at the
server. -/
theorem exists_answeredAt (hfair : (moment env s q).Fair) (hsend : q.Sendable s) :
    ∃ a, q.AnsweredAt (moment env s q) a := by
  cases q with
  | ping => exact ⟨_, answeredAt_ping env s⟩
  | hello => exact ⟨_, answeredAt_hello env s⟩
  | login user password => exact exists_answeredAt_login env s user password
  | auth token => exact exists_answeredAt_auth env s token
  | call c =>
    by_cases hquit : c = .quit
    · subst hquit
      exact ⟨_, answeredAt_quit env s⟩
    by_cases h : c.Permitted s
    · exact exists_answeredAt_permitted hfair hsend h hquit
    · exact exists_answeredAt_not_permitted hfair.sound hsend h

/-- A body that ends early is thrown away and not answered, and the connection ends. -/
theorem storeBody_short (hsound : env.Sound) (s : SessionState) (final : Path) {size : ℕ}
    (after : List DiskStep) {input : Bytes} (h : input.length < size) :
    (Session.storeBody env s final size after input).reply = [] ∧
      (Session.storeBody env s final size after input).go = false := by
  simp [Session.storeBody, Session.receiveToFile, hsound.receives, not_le.mpr h]

theorem handle_short (hsound : env.Sound) (hsend : q.Sendable s) {input : Bytes}
    (h : input.length < q.body.length) :
    (Session.handle env s q.line input).reply = [] ∧
      (Session.handle env s q.line input).go = false ∧
      (Session.handle env s q.line input).session = s ∧
      Session.asks s env.now q.line input = .other := by
  cases q with
  | ping | hello | login | auth => exact absurd h (Nat.not_lt_zero _)
  | call c =>
    have hshort : (Session.handle env s c.line input).reply = [] ∧
        (Session.handle env s c.line input).go = false := by
      cases c with
      | stat | getFile | delFile | getChunk | delChunk | list | quit =>
        exact absurd h (Nat.not_lt_zero _)
      | putFile name content tag =>
        obtain ⟨⟨hlogin, hsize, hpath⟩, htag⟩ := hsend.2.2 trivial
        obtain ⟨final, hfinal⟩ := Option.isSome_iff_exists.mp hpath
        rw [Call.line, Session.handle_putFileLine htag hlogin hsize hfinal]
        exact storeBody_short hsound s final _ h
      | putChunk id content =>
        obtain ⟨hid, htrust, hsize⟩ := hsend.2.2 trivial
        rw [Call.line, Session.handle_putChunkLine htrust hsize (chunkPath_of_safe hid)]
        exact storeBody_short hsound s _ _ h
    refine ⟨hshort.1, hshort.2, handle_session hsend.1 input, ?_⟩
    by_contra hother
    obtain ⟨res, -, hreply⟩ :=
      (Session.handle_serves hsound s c.line input).answer.resolve_left hother
    rw [hshort.1] at hreply
    have hempty : Session.replyTo res ≠ [] := by
      cases res <;> simp [Session.replyTo, sendLine]
    exact hempty hreply.symm

/-- A part of a question: its line does not arrive, or its line and a part of its body. -/
theorem readLine_take_bytes (hsend : q.Sendable s) {n : ℕ} (hn : n < q.bytes.length) :
    readLine (q.bytes.take n) = none ∨ ∃ input, input.length < q.body.length ∧
      readLine (q.bytes.take n) = some (q.line, input) := by
  have hbreak : 10 ∉ q.line := fun hc => (isPlain_line hsend 10 hc).1 rfl
  rcases Nat.lt_or_ge n (sendLine q.line).length with hlt | hge
  · rw [bytes, List.take_append_of_le_length hlt.le]
    exact .inl (readLine_take_sendLine hbreak hlt)
  · rw [bytes, List.length_append] at hn
    rw [bytes, List.take_append, List.take_of_length_le hge]
    refine .inr ⟨q.body.take (n - (sendLine q.line).length), ?_, ?_⟩
    · rw [List.length_take]
      omega
    · exact readLine_line (isPlain_line hsend) (length_line_le hsend) _

theorem leavesReadable_of_truly {m : Moment} {a : Except String Reported} (hfair : m.Fair)
    (hsend : q.Sendable m.session) (h : q.Truly m a) : m.request.LeavesReadable := by
  have hother : m.request = .other → m.request.LeavesReadable := fun hrequest => by
    rw [hrequest]
    trivial
  cases q with
  | ping | hello => exact hother h
  | login | auth => exact hother h.1
  | call c =>
    rcases h with ⟨hpermitted, hrequest, -⟩ | ⟨-, hrequest, -⟩
    · rw [hrequest]
      exact Service.leavesReadable_request hsend.2.1 hpermitted ⟨hfair.notBefore, hfair.notAfter⟩ _
    · exact hother hrequest

end Question

end Remote

end PersonalCloud
