import PersonalCloud.Core.Cipher
import PersonalCloud.Library.Machine
import PersonalCloud.System.Access

/-! The server with all its connections, one command or request at a time: the sessions of browsers
against the history of logins, logouts and the clock. -/
namespace PersonalCloud

open Proto Store Http

structure Service where
  disk : Disk
  sessions : ℕ → SessionState
  entries : BrowserSessions
  now : ℕ

namespace WebUi

def IsLogout (request : HttpRequest) : Prop :=
  request.method = ascii "POST" ∧ request.path = ascii "/api/logout"

instance : DecidablePred IsLogout := fun request =>
  inferInstanceAs (Decidable (request.method = ascii "POST" ∧ request.path = ascii "/api/logout"))

/-- The response is that of a successful login. -/
def WebHandled.Welcomes (r : WebHandled) : Prop :=
  ∃ token user, r.response = some (200, .session token user)

variable (env : WebEnv) (entries : BrowserSessions) (request : HttpRequest) (input : Bytes)

theorem not_welcomes {r : WebHandled} (h : ∀ token user, r.response ≠ some (200, .session token user)) :
    ¬ r.Welcomes := by
  rintro ⟨token, user, hr⟩
  exact h token user hr

theorem serveGetFile_not_welcomes (e : SessionEnv) (user name : Bytes) :
    ¬ (serveGetFile e user name input).Welcomes := by
  unfold serveGetFile
  split <;> exact not_welcomes (by simp [respond])

theorem servePutFile_not_welcomes (e : SessionEnv) (user name query : Bytes) (size : ℕ) :
    ¬ (servePutFile e user name query size input).Welcomes := by
  unfold servePutFile
  split
  · exact not_welcomes (by simp [respond])
  · split
    · exact not_welcomes (by simp)
    · split_ifs
      · exact not_welcomes (by simp)
      · exact not_welcomes (by simp [respond])
    · split_ifs
      · exact not_welcomes (by simp)
      · exact not_welcomes (by simp [respond])
      · exact not_welcomes (by simp [respond])

theorem serveUser_not_welcomes (user : Bytes) : ¬ (serveUser env user request input).Welcomes := by
  unfold serveUser
  split_ifs
  · exact not_welcomes (by simp [serveList, respond])
  · exact serveGetFile_not_welcomes _ _ _ _
  · exact servePutFile_not_welcomes _ _ _ _ _ _
  · refine not_welcomes fun token user' => ?_
    simp only [serveDeleteFile, respond]
    split_ifs <;> simp
  · exact not_welcomes (by simp [respond])

theorem serveLogin_cases :
    (∃ user, (serveLogin env entries request input).2.response =
        some (200, .session env.fresh user) ∧
      (serveLogin env entries request input).1 =
        entries.create env.clock env.issued env.fresh user) ∨
    (¬ (serveLogin env entries request input).2.Welcomes ∧
      (serveLogin env entries request input).1 = entries) := by
  unfold WebHandled.Welcomes
  simp only [serveLogin]
  split_ifs
  · exact .inr ⟨by simp [respond], rfl⟩
  · exact .inr ⟨by simp, rfl⟩
  · split
    · split_ifs
      · exact .inr ⟨by simp [respond], rfl⟩
      · exact .inr ⟨by simp [respond], rfl⟩
      · exact .inl ⟨_, rfl, rfl⟩
    · exact .inr ⟨by simp [respond], rfl⟩

theorem authenticate_fst : (authenticate env.clock entries request).1 = entries ∨
    (authenticate env.clock entries request).1 = entries.expireLocked env.clock := by
  unfold authenticate
  split
  · exact .inl rfl
  · unfold BrowserSessions.lookup
    split_ifs
    · exact .inl rfl
    · exact .inr rfl

/-- What becomes of the session map: a login makes an entry, a logout destroys one, and anything
else at most sweeps out what has expired. -/
theorem handle_entries :
    (¬ IsLogout request ∧ ∃ user,
      (handle env entries request input).2.response = some (200, .session env.fresh user) ∧
      (handle env entries request input).1 =
        entries.create env.clock env.issued env.fresh user) ∨
    (IsLogout request ∧ ¬ (handle env entries request input).2.Welcomes ∧
      (handle env entries request input).1 =
        (bearer request).elim entries fun token => entries.destroy token) ∨
    (¬ IsLogout request ∧ ¬ (handle env entries request input).2.Welcomes ∧
      ((handle env entries request input).1 = entries ∨
        (handle env entries request input).1 = entries.expireLocked env.clock)) := by
  have hroutes : ascii "GET" ≠ ascii "POST" ∧ ascii "/api/login" ≠ ascii "/api/logout" := by decide
  unfold handle
  split_ifs with hpage hlogin hlogout hapi
  · have hother : ¬ IsLogout request := fun h => hroutes.1 (hpage.1.symm.trans h.1)
    exact .inr (.inr ⟨hother, not_welcomes (by simp [respond]), .inl rfl⟩)
  · have hother : ¬ IsLogout request := fun h => hroutes.2 (hlogin.2.symm.trans h.2)
    rcases serveLogin_cases env entries request input with
      ⟨user, hresponse, hentries⟩ | ⟨hnot, hentries⟩
    · exact .inl ⟨hother, user, hresponse, hentries⟩
    · exact .inr (.inr ⟨hother, hnot, .inl hentries⟩)
  · refine .inr (.inl ⟨hlogout, not_welcomes (by simp [serveLogout, respond]), ?_⟩)
    simp only [serveLogout]
    cases bearer request <;> rfl
  · refine .inr (.inr ⟨hlogout, ?_⟩)
    have hfst := authenticate_fst env entries request
    rcases hauth : authenticate env.clock entries request with ⟨entries', _ | user⟩
    · rw [hauth] at hfst
      exact ⟨not_welcomes (by simp [respond]), hfst⟩
    · rw [hauth] at hfst
      exact ⟨serveUser_not_welcomes _ _ _ _, hfst⟩
  · exact .inr (.inr ⟨hlogout, serveUser_not_welcomes _ _ _ _, .inl rfl⟩)

end WebUi

namespace Service

open Machine

/-- A command on some connection, or a request of a browser given by its first line and what
follows. Of the time, `elapsed` passes before a request reads the clock and `more` after it; `drawn`
are the random bytes of a login. -/
inductive Event where
  | command (conn : ℕ) (env : SessionEnv) (line input : Bytes)
  | request (env : SessionEnv) (elapsed more : ℕ) (drawn line input : Bytes)

def web (s : Service) (env : SessionEnv) (elapsed more : ℕ) (drawn : Bytes) : WebEnv where
  toSessionEnv := { env with disk := s.disk }
  clock := s.now + elapsed
  issued := s.now + elapsed + more
  fresh := toHex drawn

inductive Reply where
  | command (r : Handled)
  | request (r : WebUi.WebHandled)
  /-- The connection is closed on a request that cannot be parsed. -/
  | closed

def answer (s : Service) : Event → Reply
  | .command conn env line input =>
      .command (Session.handle { env with disk := s.disk } (s.sessions conn) line input)
  | .request env elapsed more drawn line input =>
      match readRequest line input with
      | .error _ => .closed
      | .ok (request, body) =>
          .request (WebUi.handle (s.web env elapsed more drawn) s.entries request body).2

def steps (s : Service) (e : Event) : List DiskStep :=
  match s.answer e with
  | .command r => r.steps
  | .request r => r.steps
  | .closed => []

def step (s : Service) : Event → Service
  | .command conn env line input =>
      let r := Session.handle { env with disk := s.disk } (s.sessions conn) line input
      { s with
        disk := s.disk.run r.steps
        sessions := Function.update s.sessions conn r.session }
  | .request env elapsed more drawn line input =>
      let later := { s with now := s.now + elapsed + more }
      match readRequest line input with
      | .error _ => later
      | .ok (request, body) =>
          let r := WebUi.handle (s.web env elapsed more drawn) s.entries request body
          { later with disk := s.disk.run r.2.steps, entries := r.1 }

def start (d : Disk) (now : ℕ) : Service := ⟨d, fun _ => {}, fun _ => none, now⟩

/-- A successful login: the token it returns, the account, and the time. -/
def returnedBy (s : Service) : Event → Option (Bytes × Bytes × ℕ)
  | .command .. => none
  | .request env elapsed more drawn line input =>
      match s.answer (.request env elapsed more drawn line input) with
      | .request ⟨some (200, .session token user), _, _, _⟩ =>
          some (token, user, s.now + elapsed + more)
      | _ => none

/-- The token a logout destroys. -/
def destroyedBy : Event → Option Bytes
  | .command .. => none
  | .request _ _ _ _ line input =>
      match readRequest line input with
      | .error _ => none
      | .ok (request, _) =>
          if WebUi.IsLogout request then WebUi.bearer request else none

/-- Everything the logins of a run return. -/
def returned (s : Service) : List Event → List (Bytes × Bytes × ℕ)
  | [] => []
  | e :: es => (returnedBy s e).toList ++ returned (step s e) es

/-- The random generator delivers 32 bytes and never repeats itself. -/
structure FreshTokens (s : Service) (es : List Event) : Prop where
  distinct : ((returned s es).map Prod.fst).Nodup
  delivered : ∀ x ∈ returned s es, x.1.length = 64

/-- A login of the run has returned the token at a time, and no logout has destroyed it since. -/
def Live (s : Service) (es : List Event) (token user : Bytes) (time : ℕ) : Prop :=
  ∃ before login after, es = before ++ login :: after ∧
    returnedBy (run step s before) login = some (token, user, time) ∧
    ∀ e ∈ after, destroyedBy e ≠ some token

section History

variable {s : Service} {es : List Event} {e : Event} {token user : Bytes} {time : ℕ}

theorem returned_append (s : Service) (es fs : List Event) :
    returned s (es ++ fs) = returned s es ++ returned (run step s es) fs := by
  induction es generalizing s with
  | nil => rfl
  | cons e es ih => rw [List.cons_append, returned, ih, returned, run_cons, List.append_assoc]

theorem live_append : Live s (es ++ [e]) token user time ↔
    returnedBy (run step s es) e = some (token, user, time) ∨
      Live s es token user time ∧ destroyedBy e ≠ some token := by
  constructor
  · rintro ⟨before, login, after, hes, hlogin, hafter⟩
    rcases List.eq_nil_or_concat after with rfl | ⟨after, last, rfl⟩
    · obtain ⟨rfl, hlast⟩ := List.append_inj' hes rfl
      obtain rfl : e = login := by simpa using hlast
      exact .inl hlogin
    · rw [List.concat_eq_append, ← List.cons_append, ← List.append_assoc] at hes
      obtain ⟨rfl, hlast⟩ := List.append_inj' hes rfl
      obtain rfl : e = last := by simpa using hlast
      refine .inr ⟨⟨before, login, after, rfl, hlogin, fun x hx => hafter x ?_⟩, hafter e ?_⟩
      · simp [hx]
      · simp
  · rintro (h | ⟨⟨before, login, after, rfl, hlogin, hafter⟩, he⟩)
    · exact ⟨es, e, [], rfl, h, by simp⟩
    · refine ⟨before, login, after ++ [e], by simp, hlogin, fun x hx => ?_⟩
      rcases List.mem_append.mp hx with hx | hx
      · exact hafter x hx
      · rw [List.mem_singleton.mp hx]
        exact he

theorem live_append_of_other (hreturned : returnedBy (run step s es) e ≠ some (token, user, time))
    (hdestroyed : destroyedBy e ≠ some token) :
    Live s (es ++ [e]) token user time ↔ Live s es token user time := by
  rw [live_append]
  constructor
  · rintro (h | ⟨h, -⟩)
    · exact absurd h hreturned
    · exact h
  · exact fun h => .inr ⟨h, hdestroyed⟩

theorem Live.mem_returned (h : Live s es token user time) :
    (token, user, time) ∈ returned s es := by
  obtain ⟨before, login, after, rfl, hlogin, -⟩ := h
  rw [returned_append, returned, hlogin]
  simp

theorem FreshTokens.earlier (h : FreshTokens s (es ++ [e])) : FreshTokens s es where
  distinct := by
    have hd := h.distinct
    rw [returned_append, List.map_append] at hd
    exact hd.of_append_left
  delivered x hx := h.delivered x (by
    rw [returned_append]
    exact List.mem_append_left _ hx)

end History

section Entries

theorem expireLocked_eq_some {clock : ℕ} {entries : BrowserSessions} {token : Bytes}
    {entry : BrowserEntry} : entries.expireLocked clock token = some entry ↔
      entries token = some entry ∧ clock < entry.expires := by
  simp [BrowserSessions.expireLocked, Option.filter_eq_some_iff]

variable (s : Service) (e : Event)

theorem now_le_step : s.now ≤ (step s e).now := by
  cases e with
  | command conn env line input => exact le_rfl
  | request env elapsed more drawn line input =>
    have hlater : s.now ≤ s.now + elapsed + more := by omega
    simp only [step]
    split <;> exact hlater

theorem step_entries :
    (∃ token user clock, returnedBy s e = some (token, user, (step s e).now) ∧
      destroyedBy e = none ∧ clock ≤ (step s e).now ∧
      (step s e).entries = Function.update (s.entries.expireLocked clock) token
        (some ⟨user, (step s e).now + BrowserSessions.kSessionLength⟩)) ∨
    (returnedBy s e = none ∧ ∃ token, destroyedBy e = some token ∧
      (step s e).entries = s.entries.destroy token) ∨
    (returnedBy s e = none ∧ destroyedBy e = none ∧ ((step s e).entries = s.entries ∨
      ∃ clock ≤ (step s e).now, (step s e).entries = s.entries.expireLocked clock)) := by
  cases e with
  | command conn env line input => exact .inr (.inr ⟨rfl, rfl, .inl rfl⟩)
  | request env elapsed more drawn line input =>
    cases hread : readRequest line input with
    | error reason =>
      refine .inr (.inr ⟨?_, ?_, .inl ?_⟩)
      · simp [returnedBy, answer, hread]
      · simp [destroyedBy, hread]
      · simp [step, hread]
    | ok got =>
      rcases got with ⟨request, body⟩
      have hreturned (h : ¬ (WebUi.handle (s.web env elapsed more drawn) s.entries request
          body).2.Welcomes) : returnedBy s (.request env elapsed more drawn line input) = none := by
        simp only [returnedBy, answer, hread]
        split
        · next heq => exact absurd ⟨_, _, by rw [Reply.request.inj heq]⟩ h
        · rfl
      simp only [step, destroyedBy, hread]
      rcases WebUi.handle_entries (s.web env elapsed more drawn) s.entries request body with
        ⟨hother, user, hresponse, hentries⟩ | ⟨hlogout, hnot, hentries⟩ | ⟨hother, hnot, hentries⟩
      · refine .inl ⟨toHex drawn, user, s.now + elapsed, ?_, if_neg hother, by omega, hentries⟩
        simp only [returnedBy, answer, hread]
        generalize (WebUi.handle (s.web env elapsed more drawn) s.entries request body).2 = r
          at hresponse
        obtain ⟨response, go, steps, rest⟩ := r
        obtain rfl : response = _ := hresponse
        rfl
      · rw [if_pos hlogout, hentries]
        cases WebUi.bearer request with
        | none => exact .inr (.inr ⟨hreturned hnot, rfl, .inl rfl⟩)
        | some token => exact .inr (.inl ⟨hreturned hnot, token, rfl, rfl⟩)
      · refine .inr (.inr ⟨hreturned hnot, if_neg hother, hentries.imp id fun h => ?_⟩)
        exact ⟨s.now + elapsed, by omega, h⟩

end Entries

/-- A token that is returned opens the session of this login and no other. -/
theorem live_of_login {s : Service} {es : List Event} {e : Event} (h : FreshTokens s (es ++ [e]))
    {token user user' : Bytes} {time time' : ℕ}
    (hreturned : returnedBy (run step s es) e = some (token, user', time')) :
    Live s (es ++ [e]) token user time ↔ user' = user ∧ time' = time := by
  have hfirst : ¬ Live s es token user time := by
    intro hlive
    have hd := h.distinct
    rw [returned_append, returned, returned, hreturned, List.map_append] at hd
    exact (List.nodup_append.mp hd).2.2 token
      (List.mem_map.mpr ⟨_, hlive.mem_returned, rfl⟩) token (by simp) rfl
  rw [live_append, hreturned]
  constructor
  · rintro (hlast | ⟨hbefore, -⟩)
    · simpa using hlast
    · exact absurd hbefore hfirst
  · rintro ⟨rfl, rfl⟩
    exact .inl rfl

theorem not_live_of_logout {s : Service} {es : List Event} {e : Event} {token user : Bytes}
    {time : ℕ} (hreturned : returnedBy (run step s es) e = none)
    (hdestroyed : destroyedBy e = some token) : ¬ Live s (es ++ [e]) token user time := by
  rw [live_append, hreturned]
  rintro (hlast | ⟨-, hkept⟩)
  · exact absurd hlast.symm (Option.some_ne_none _)
  · exact hkept hdestroyed

/-- The entries that have not expired are the sessions that are live. -/
theorem entry_iff_live {s : Service} {es : List Event} (h0 : s.entries = fun _ => none)
    (h : FreshTokens s es) {token user : Bytes} {expires : ℕ}
    (hlate : (run step s es).now < expires) :
    (run step s es).entries token = some ⟨user, expires⟩ ↔
      ∃ time, Live s es token user time ∧ expires = time + BrowserSessions.kSessionLength := by
  induction es using List.reverseRecOn generalizing token user expires with
  | nil =>
    constructor
    · intro h
      rw [run_nil, h0] at h
      exact absurd h.symm (Option.some_ne_none _)
    · rintro ⟨time, ⟨before, login, after, hes, -⟩, -⟩
      simp at hes
  | append_singleton es e ih =>
    rw [Machine.run_append, run_cons, run_nil] at hlate ⊢
    have hnow := now_le_step (run step s es) e
    have ih := @ih h.earlier
    rcases step_entries (run step s es) e with
      ⟨fresh, user', clock, hreturned, hdestroyed, hclock, hentries⟩ |
      ⟨hreturned, gone, hdestroyed, hentries⟩ | ⟨hreturned, hdestroyed, hentries⟩
    · rw [hentries]
      by_cases htoken : token = fresh
      · subst htoken
        simp only [live_of_login h hreturned, Function.update_self]
        constructor
        · intro heq
          obtain ⟨rfl, rfl⟩ : user' = user ∧ _ = expires := by simpa using heq
          exact ⟨_, ⟨rfl, rfl⟩, rfl⟩
        · rintro ⟨time, ⟨rfl, rfl⟩, rfl⟩
          rfl
      · have hother (time : ℕ) : Live s (es ++ [e]) token user time ↔ Live s es token user time :=
          live_append_of_other (by simp [hreturned, Ne.symm htoken]) (by simp [hdestroyed])
        rw [Function.update_of_ne htoken, expireLocked_eq_some, ih (hnow.trans_lt hlate)]
        simp only [hother]
        exact and_iff_left (hclock.trans_lt hlate)
    · rw [hentries, BrowserSessions.destroy]
      by_cases htoken : token = gone
      · subst htoken
        rw [Function.update_self]
        constructor
        · exact fun heq => absurd heq.symm (Option.some_ne_none _)
        · rintro ⟨time, hlive, -⟩
          exact absurd hlive (not_live_of_logout hreturned hdestroyed)
      · have hother (time : ℕ) : Live s (es ++ [e]) token user time ↔ Live s es token user time :=
          live_append_of_other (by simp [hreturned]) (by simp [hdestroyed, Ne.symm htoken])
        rw [Function.update_of_ne htoken, ih (hnow.trans_lt hlate)]
        simp only [hother]
    · have hother (time : ℕ) : Live s (es ++ [e]) token user time ↔ Live s es token user time :=
        live_append_of_other (by simp [hreturned]) (by simp [hdestroyed])
      simp only [hother]
      rw [← ih (hnow.trans_lt hlate)]
      rcases hentries with hentries | ⟨clock, hclock, hentries⟩
      · rw [hentries]
      · rw [hentries, expireLocked_eq_some]
        exact and_iff_left (hclock.trans_lt hlate)

theorem authenticate_eq_some {clock : ℕ} {entries : BrowserSessions} {request : HttpRequest}
    {user : Bytes} : (WebUi.authenticate clock entries request).2 = some user ↔
      ∃ token expires, WebUi.bearer request = some token ∧ token ≠ [] ∧
        entries token = some ⟨user, expires⟩ ∧ clock < expires := by
  unfold WebUi.authenticate
  cases WebUi.bearer request with
  | none => simp
  | some token =>
    cases htoken : token.isEmpty with
    | true =>
      have hnil : token = [] := List.isEmpty_iff.mp htoken
      simp [BrowserSessions.lookup, hnil]
    | false =>
      have hne : token ≠ [] := by simpa using htoken
      simp only [BrowserSessions.lookup, htoken, Bool.false_eq_true, if_false, Option.map_eq_some_iff,
        expireLocked_eq_some, Option.some.injEq]
      constructor
      · rintro ⟨⟨user', expires⟩, ⟨hentry, hlate⟩, rfl⟩
        exact ⟨token, expires, rfl, hne, hentry, hlate⟩
      · rintro ⟨_, expires, rfl, -, hentry, hlate⟩
        exact ⟨⟨user, expires⟩, ⟨hentry, hlate⟩, rfl⟩

/-- A bearer token is accepted for exactly the account whose login returned it, strictly less than
120 minutes ago and with no logout since. -/
theorem authenticate_iff_live {s : Service} {es : List Event} (h0 : s.entries = fun _ => none)
    (h : FreshTokens s es) {clock : ℕ} (hclock : (run step s es).now ≤ clock)
    {request : HttpRequest} {user : Bytes} :
    (WebUi.authenticate clock (run step s es).entries request).2 = some user ↔
      ∃ token time, WebUi.bearer request = some token ∧ Live s es token user time ∧
        clock < time + BrowserSessions.kSessionLength := by
  rw [authenticate_eq_some]
  constructor
  · rintro ⟨token, expires, hbearer, -, hentry, hlate⟩
    obtain ⟨time, hlive, rfl⟩ := (entry_iff_live h0 h (hclock.trans_lt hlate)).mp hentry
    exact ⟨token, time, hbearer, hlive, hlate⟩
  · rintro ⟨token, time, hbearer, hlive, hlate⟩
    have hne : token ≠ [] := by
      rintro rfl
      exact absurd (h.delivered _ hlive.mem_returned) (by simp)
    exact ⟨token, _, hbearer, hne,
      (entry_iff_live h0 h (hclock.trans_lt hlate)).mpr ⟨time, hlive, rfl⟩, hlate⟩

theorem handle_of_authenticate {env : WebEnv} {entries : BrowserSessions} {request : HttpRequest}
    {user : Bytes} (input : Bytes) (hapi : WebUi.kApiPrefix.isPrefixOf request.path = true)
    (hlogin : ¬ (request.method = ascii "POST" ∧ request.path = ascii "/api/login"))
    (hlogout : ¬ WebUi.IsLogout request)
    (h : (WebUi.authenticate env.clock entries request).2 = some user) :
    (WebUi.handle env entries request input).2 = WebUi.serveUser env user request input := by
  have hpage : ¬ (request.method = ascii "GET" ∧
      (request.path = ascii "/" ∨ request.path = ascii "/index.html")) := by
    rintro ⟨-, hpath | hpath⟩
    · rw [hpath] at hapi
      exact absurd hapi (by decide)
    · rw [hpath] at hapi
      exact absurd hapi (by decide)
  rw [WebUi.IsLogout] at hlogout
  rw [WebUi.handle_snd, if_neg hpage, if_neg hlogin, if_neg hlogout, if_pos hapi, h,
    Option.elim_some]

/-- Whatever happened on a server before: a request does something to the store, or depends on it,
only within the account of a live session whose token it carries; and every such token is accepted
on every request behind the sign-in. -/
theorem acts_for_live_session (d : Disk) (started : ℕ) (es : List Event)
    (h : FreshTokens (start d started) es) (env : SessionEnv) (elapsed more : ℕ)
    (drawn body : Bytes) (request : HttpRequest) :
    let s := run step (start d started) es
    let w := s.web env elapsed more drawn
    (∃ sc, Within sc env.random WebUi.WebHandled.steps
        (fun d => (WebUi.handle { w with disk := d } s.entries request body).2) ∧
      (sc = .nothing ∨ ∃ token user time, sc = .account user ∧
        WebUi.bearer request = some token ∧ Live (start d started) es token user time ∧
        w.clock < time + BrowserSessions.kSessionLength)) ∧
    ∀ token user time, WebUi.bearer request = some token →
      Live (start d started) es token user time →
      w.clock < time + BrowserSessions.kSessionLength →
      (WebUi.authenticate w.clock s.entries request).2 = some user ∧
      (WebUi.kApiPrefix.isPrefixOf request.path = true →
        ¬ (request.method = ascii "POST" ∧ request.path = ascii "/api/login") →
        ¬ WebUi.IsLogout request →
        (WebUi.handle w s.entries request body).2 = WebUi.serveUser w user request body) := by
  intro s w
  have hclock : s.now ≤ w.clock := Nat.le_add_right s.now elapsed
  refine ⟨⟨WebUi.scopeOf w.clock s.entries request, WebUi.handle_within .., ?_⟩, ?_⟩
  · unfold WebUi.scopeOf
    split_ifs
    · split
      · exact .inl rfl
      · next user hauth =>
        obtain ⟨token, time, hbearer, hlive, hlate⟩ :=
          (authenticate_iff_live rfl h hclock).mp hauth
        exact .inr ⟨token, user, time, rfl, hbearer, hlive, hlate⟩
    · exact .inl rfl
  · intro token user time hbearer hlive hlate
    have hauth := (authenticate_iff_live rfl h hclock).mpr ⟨token, time, hbearer, hlive, hlate⟩
    exact ⟨hauth, fun hapi hlogin hlogout => handle_of_authenticate body hapi hlogin hlogout hauth⟩

def sampleLogin : Event :=
  .request { calmEnv with verify := fun _ _ => true } 0 0 (List.replicate 32 7)
    (ascii "POST /api/login HTTP/1.1")
    (ascii "Content-Length: 35\r\n\r\n\x7b\"user\":\"anna\",\"password\":\"secret\"\x7d")

def sampleRequest : HttpRequest :=
  ⟨ascii "GET", ascii "/api/files", [],
    (∅ : AList fun _ : Bytes => Bytes).insert (ascii "authorization")
      (ascii "Bearer " ++ toHex (List.replicate 32 7)), 0⟩

theorem acts_for_live_session_sample :
    FreshTokens (start ∅ 0) [sampleLogin] ∧
    let s := run step (start ∅ 0) [sampleLogin]
    (WebUi.authenticate (s.web calmEnv (60 * 10 ^ 9) 0 []).clock s.entries sampleRequest).2 =
      some (ascii "anna") := by
  have hfresh : FreshTokens (start ∅ 0) [sampleLogin] := ⟨by decide +kernel, by decide +kernel⟩
  refine ⟨hfresh, ?_⟩
  refine ((acts_for_live_session ∅ 0 [sampleLogin] hfresh calmEnv (60 * 10 ^ 9) 0 [] []
    sampleRequest).2 (toHex (List.replicate 32 7)) (ascii "anna") 0 (by decide +kernel) ?_
      (by decide +kernel)).1
  exact ⟨[], sampleLogin, [], rfl, by decide +kernel, by simp⟩

end Service

end PersonalCloud
