import PersonalCloud.System.Scope

/-! A whole connection: what its lines have proved decides what of the store each command reaches. -/
namespace PersonalCloud

open Proto Channel Store Http

namespace Session

/-- `ensure_account`: the name is one for a directory, and the directories can be made. -/
def ensureAccount (env : SessionEnv) (name : Bytes) : Bool := isValidUsername name && env.ensures

def loginOf (env : SessionEnv) (line : Bytes) : Option Bytes :=
  match split line with
  | [cmd, name, password] =>
      if cmd = kLogin ∧ env.verify name password = true ∧ ensureAccount env name = true then some name
      else none
  | _ => none

def provesMachine (env : SessionEnv) (line : Bytes) : Bool :=
  match split line with
  | [cmd, token] => decide (cmd = kAuth ∧ token = env.token)
  | _ => false

/-- The line is rejected for wrong credentials. -/
def Refused (env : SessionEnv) (line : Bytes) : Prop :=
  (∃ name password, split line = [kLogin, name, password] ∧ env.verify name password = false) ∨
  ∃ token, split line = [kAuth, token] ∧ token ≠ env.token

/-- The account of the last of the lines that signed in; command `k` meets `envs k`. -/
def lastLogin (envs : ℕ → SessionEnv) (lines : List Bytes) : Option Bytes :=
  (lines.zipIdx.filterMap fun x => loginOf (envs x.2) x.1).getLast?

def machineProved (envs : ℕ → SessionEnv) (lines : List Bytes) : Bool :=
  lines.zipIdx.any fun x => provesMachine (envs x.2) x.1

/-- What a line may reach after the lines before it. -/
def granted (envs : ℕ → SessionEnv) (earlier : List Bytes) (line : Bytes) : Scope :=
  match (split line).head? with
  | none => .nothing
  | some cmd =>
      if isFileCommand cmd then
        match lastLogin envs earlier with
        | none => .nothing
        | some user => .account user
      else if isChunkCommand cmd ∧ machineProved envs earlier = true then .chunks
      else .nothing

/-- The rounds of a connection, in the protocol that its first line speaks. -/
inductive Served where
  | commands (rounds : List (Bytes × Handled))
  | web (rounds : List (Bytes × HttpRequest × WebUi.WebHandled))

def run (envs : ℕ → SessionEnv) (found : ℕ → WebEnv × BrowserSessions) (input : Bytes) : Served :=
  match readLine input with
  | none => .commands []
  | some (line, rest) =>
      if looksLikeHttp line then .web (WebUi.runHttp found line rest)
      else .commands (serve envs {} input)

section Step

variable (env : SessionEnv) (s : SessionState) (line input : Bytes)

def learn : SessionState :=
  match loginOf env line with
  | some user => { s with user := user, loggedIn := true }
  | none => { s with machineTrusted := s.machineTrusted || provesMachine env line }

theorem loginOf_of_other {cmd : Bytes} {fs : List Bytes} (hline : split line = cmd :: fs)
    (h : cmd ≠ kLogin) : loginOf env line = none := by
  unfold loginOf
  split
  · next hsplit =>
    rw [hline, List.cons.injEq] at hsplit
    exact if_neg fun hc => h (hsplit.1.trans hc.1)
  · rfl

theorem loginOf_malformed (h : (split line).length ≠ 3) : loginOf env line = none := by
  unfold loginOf
  split
  · next hsplit => exact absurd (congrArg List.length hsplit) h
  · rfl

theorem provesMachine_of_other {cmd : Bytes} {fs : List Bytes} (hline : split line = cmd :: fs)
    (h : cmd ≠ kAuth) : provesMachine env line = false := by
  unfold provesMachine
  split
  · next hsplit =>
    rw [hline, List.cons.injEq] at hsplit
    exact decide_eq_false fun hc => h (hsplit.1.trans hc.1)
  · rfl

theorem provesMachine_malformed (h : (split line).length ≠ 2) :
    provesMachine env line = false := by
  unfold provesMachine
  split
  · next hsplit => exact absurd (congrArg List.length hsplit) h
  · rfl

theorem doLogin_session {name password : Bytes} :
    (doLogin env s [kLogin, name, password] input).session =
      if env.verify name password = true ∧ ensureAccount env name = true then
        { s with user := name, loggedIn := true }
      else s := by
  unfold doLogin ensureAccount
  split
  · next heq =>
    obtain ⟨-, rfl, rfl⟩ : kLogin = _ ∧ name = _ ∧ password = _ := by simpa using heq
    cases env.verify name password
    · simp [hangUp]
    · cases isValidUsername name
      · simp [fail, answer]
      · cases env.ensures
        · simp [fail, answer]
        · simp [answer]
  · next hne => exact absurd rfl (hne kLogin name password)

theorem doLogin_session_malformed {fs : List Bytes} (h : fs.length ≠ 3) :
    (doLogin env s fs input).session = s := by
  unfold doLogin
  split
  · exact absurd rfl h
  · rfl

theorem doAuth_session {token : Bytes} :
    (doAuth env s [kAuth, token] input).session =
      if token = env.token then { s with machineTrusted := true } else s := by
  by_cases h : token = env.token
  · simp [doAuth, h, answer]
  · simp [doAuth, h, hangUp]

theorem doAuth_session_malformed {fs : List Bytes} (h : fs.length ≠ 2) :
    (doAuth env s fs input).session = s := by
  unfold doAuth
  split
  · exact absurd rfl h
  · rfl

theorem session_ite {c : Prop} [Decidable c] {a b : Handled} (ha : a.session = s)
    (hb : b.session = s) : (if c then a else b).session = s := by
  split_ifs
  · exact ha
  · exact hb

theorem doStat_session : (doStat env s line input).session = s := by
  unfold doStat
  split
  · split <;> rfl
  · rfl

theorem doPutFile_session : (doPutFile env s line input).session = s := by
  unfold doPutFile
  split
  · split
    · rfl
    · split
      · rfl
      · exact storeBody_session ..
  · rfl

theorem doGetFile_session : (doGetFile env s line input).session = s := by
  unfold doGetFile
  split
  · split <;> rfl
  · rfl

theorem doDelFile_session : (doDelFile env s line input).session = s := by
  unfold doDelFile
  split <;> rfl

theorem doPutChunk_session (fs : List Bytes) : (doPutChunk env s fs input).session = s := by
  unfold doPutChunk
  split
  · split
    · rfl
    · split
      · rfl
      · exact storeBody_session ..
  · rfl

theorem doGetChunk_session (fs : List Bytes) : (doGetChunk env s fs input).session = s := by
  unfold doGetChunk
  split
  · split <;> rfl
  · rfl

theorem doDelChunk_session (fs : List Bytes) : (doDelChunk env s fs input).session = s := by
  unfold doDelChunk
  split
  · split <;> rfl
  · rfl

/-- Only the two sign-ins change what the connection has proved. -/
theorem handle_session_of_other {cmd : Bytes} {fs : List Bytes} (hline : split line = cmd :: fs)
    (hlogin : cmd ≠ kLogin) (hauth : cmd ≠ kAuth) : (handle env s line input).session = s := by
  simp only [handle, hline, if_neg hlogin, if_neg hauth]
  refine session_ite s rfl (session_ite s rfl (session_ite s rfl (session_ite s rfl ?_)))
  refine session_ite s rfl (session_ite s (doStat_session ..) ?_)
  refine session_ite s (doPutFile_session ..) (session_ite s (doGetFile_session ..) ?_)
  refine session_ite s (doDelFile_session ..) (session_ite s (doPutChunk_session ..) ?_)
  refine session_ite s (doGetChunk_session ..) (session_ite s (doDelChunk_session ..) ?_)
  exact session_ite s rfl rfl

theorem handle_login {fs : List Bytes} (hline : split line = kLogin :: fs) :
    handle env s line input = doLogin env s (kLogin :: fs) input := by
  have hcmd : kLogin ≠ kHello ∧ kLogin ≠ kPing ∧ kLogin ≠ kQuit := by decide
  simp only [handle, hline, hcmd, if_false, if_true]

theorem handle_auth {fs : List Bytes} (hline : split line = kAuth :: fs) :
    handle env s line input = doAuth env s (kAuth :: fs) input := by
  have hcmd : kAuth ≠ kHello ∧ kAuth ≠ kPing ∧ kAuth ≠ kQuit ∧ kAuth ≠ kLogin := by decide
  simp only [handle, hline, hcmd, if_false, if_true]

theorem handle_session : (handle env s line input).session = learn env s line := by
  have hne : kLogin ≠ kAuth := by decide
  cases hline : split line with
  | nil =>
    simp [handle, hline, learn, loginOf, provesMachine]
  | cons cmd fs =>
    by_cases hlogin : cmd = kLogin
    · subst hlogin
      rw [handle_login env s line input hline, learn, provesMachine_of_other env line hline hne]
      by_cases hlen : fs.length = 2
      · obtain ⟨name, password, rfl⟩ := List.length_eq_two.mp hlen
        rw [doLogin_session]
        simp only [loginOf, hline, true_and, Bool.or_false]
        split_ifs <;> rfl
      · rw [doLogin_session_malformed _ _ _ (by simpa using hlen),
          loginOf_malformed env line (by simpa [hline] using hlen)]
        simp
    · rw [learn, loginOf_of_other env line hline hlogin]
      by_cases hauth : cmd = kAuth
      · subst hauth
        rw [handle_auth env s line input hline]
        by_cases hlen : fs.length = 1
        · obtain ⟨token, rfl⟩ := List.length_eq_one_iff.mp hlen
          rw [doAuth_session]
          simp only [provesMachine, hline, true_and]
          split_ifs with htoken
          · simp [htoken]
          · simp [htoken]
        · rw [doAuth_session_malformed _ _ _ (by simpa using hlen),
            provesMachine_malformed env line (by simpa [hline] using hlen)]
          simp
      · rw [handle_session_of_other env s line input hline hlogin hauth,
          provesMachine_of_other env line hline hauth, Bool.or_false]

theorem handle_session_of_scope (h : scopeOf s line ≠ .nothing) :
    (handle env s line input).session = s := by
  unfold scopeOf at h
  cases hline : split line with
  | nil => simp [hline] at h
  | cons cmd fs =>
    have hcmd : isFileCommand cmd ∨ isChunkCommand cmd := by
      by_contra hno
      push Not at hno
      simp [hline, hno.1, hno.2] at h
    have hother : cmd ≠ kLogin ∧ cmd ≠ kAuth := by
      rcases hcmd with (rfl | rfl | rfl | rfl | rfl) | (rfl | rfl | rfl) <;> decide
    exact handle_session_of_other env s line input hline hother.1 hother.2

/-- One guess for each connection. -/
theorem handle_refused (h : Refused env line) : (handle env s line input).go = false := by
  rcases h with ⟨name, password, hline, hwrong⟩ | ⟨token, hline, hwrong⟩
  · rw [handle_login env s line input hline, doLogin, if_pos hwrong, hangUp]
  · rw [handle_auth env s line input hline, doAuth, if_pos hwrong, hangUp]

end Step

section Rounds

variable (envs : ℕ → SessionEnv) (earlier : List Bytes)

def proved : SessionState :=
  ⟨(lastLogin envs earlier).getD [], (lastLogin envs earlier).isSome, machineProved envs earlier⟩

theorem lastLogin_append (line : Bytes) : lastLogin envs (earlier ++ [line]) =
    (loginOf (envs earlier.length) line).or (lastLogin envs earlier) := by
  simp only [lastLogin, List.zipIdx_append, List.filterMap_append, Nat.zero_add, List.zipIdx_cons,
    List.zipIdx_nil]
  cases hlogin : loginOf (envs earlier.length) line with
  | none => simp [hlogin]
  | some user => simp [hlogin]

theorem machineProved_append (line : Bytes) : machineProved envs (earlier ++ [line]) =
    (machineProved envs earlier || provesMachine (envs earlier.length) line) := by
  simp [machineProved, List.zipIdx_append]

theorem provesMachine_of_login {env : SessionEnv} {line user : Bytes}
    (h : loginOf env line = some user) : provesMachine env line = false := by
  unfold loginOf at h
  split at h
  · next hline => simp [provesMachine, hline]
  · exact absurd h.symm (Option.some_ne_none user)

theorem learn_proved (line : Bytes) :
    learn (envs earlier.length) (proved envs earlier) line = proved envs (earlier ++ [line]) := by
  unfold learn proved
  rw [lastLogin_append, machineProved_append]
  split
  · next user hlogin =>
    rw [hlogin, provesMachine_of_login hlogin]
    simp
  · next hlogin =>
    rw [hlogin]
    simp

theorem scopeOf_proved (line : Bytes) :
    scopeOf (proved envs earlier) line = granted envs earlier line := by
  unfold scopeOf granted proved
  cases (split line).head? with
  | none => rfl
  | some cmd =>
    cases lastLogin envs earlier with
    | none => simp [ite_and]
    | some user => simp [ite_and]

theorem serveFrom_succ (fuel : ℕ) (input : Bytes) :
    serveFrom envs (fuel + 1) earlier.length (proved envs earlier) input =
      match readLine input with
      | none => []
      | some (line, rest) =>
          let r := handle (envs earlier.length) (proved envs earlier) line rest
          (line, r) :: if r.go then
            serveFrom envs fuel (earlier ++ [line]).length (proved envs (earlier ++ [line])) r.rest
            else [] := by
  rw [serveFrom]
  cases readLine input with
  | none => rfl
  | some got =>
    rcases got with ⟨line, rest⟩
    simp only [handle_session, learn_proved, List.length_append, List.length_singleton]

/-- Each round handles its line with what the lines before it have proved. -/
theorem serveFrom_round {fuel k : ℕ} {input line : Bytes} {r : Handled}
    (h : (serveFrom envs fuel earlier.length (proved envs earlier) input)[k]? = some (line, r)) :
    ∃ rest, r = handle (envs (earlier.length + k)) (proved envs (earlier ++
      ((serveFrom envs fuel earlier.length (proved envs earlier) input).take k).map Prod.fst))
        line rest := by
  induction fuel generalizing earlier input k with
  | zero => simp [serveFrom] at h
  | succ fuel ih =>
    rw [serveFrom_succ] at h ⊢
    cases hread : readLine input with
    | none => simp [hread] at h
    | some got =>
      rcases got with ⟨line', rest⟩
      simp only [hread] at h ⊢
      cases k with
      | zero =>
        obtain ⟨rfl, rfl⟩ : line' = line ∧ _ = r := by simpa using h
        exact ⟨rest, by simp⟩
      | succ k =>
        rw [List.getElem?_cons_succ] at h
        split_ifs at h ⊢ with hgo
        · obtain ⟨rest', hr⟩ := ih (earlier ++ [line']) h
          refine ⟨rest', ?_⟩
          rw [hr]
          simp [Nat.add_assoc, Nat.add_comm 1]
        · simp at h

theorem serveFrom_last {fuel k : ℕ} {input line : Bytes} {r : Handled}
    (h : (serveFrom envs fuel earlier.length (proved envs earlier) input)[k]? = some (line, r))
    (hgo : r.go = false) :
    k + 1 = (serveFrom envs fuel earlier.length (proved envs earlier) input).length := by
  induction fuel generalizing earlier input k with
  | zero => simp [serveFrom] at h
  | succ fuel ih =>
    rw [serveFrom_succ] at h ⊢
    cases hread : readLine input with
    | none => simp [hread] at h
    | some got =>
      rcases got with ⟨line', rest⟩
      simp only [hread] at h ⊢
      cases k with
      | zero =>
        obtain ⟨rfl, rfl⟩ : line' = line ∧ _ = r := by simpa using h
        rw [hgo]
        rfl
      | succ k =>
        rw [List.getElem?_cons_succ] at h
        split_ifs at h ⊢ with hgo'
        · rw [ih (earlier ++ [line']) h, List.length_cons]
        · simp at h

/-- The rounds are the same on any stores that look the same to each of them. -/
theorem serveFrom_agree {fuel : ℕ} {input : Bytes} {disks : ℕ → Disk}
    (h : ∀ k line r,
      (serveFrom envs fuel earlier.length (proved envs earlier) input)[k]? = some (line, r) →
      (granted envs (earlier ++ ((serveFrom envs fuel earlier.length (proved envs earlier)
        input).take k).map Prod.fst) line).Agree (envs (earlier.length + k)).disk
          (disks (earlier.length + k))) :
    serveFrom (fun k => { envs k with disk := disks k }) fuel earlier.length (proved envs earlier)
      input = serveFrom envs fuel earlier.length (proved envs earlier) input := by
  induction fuel generalizing earlier input with
  | zero => rfl
  | succ fuel ih =>
    have hproved (lines : List Bytes) :
        proved (fun k => { envs k with disk := disks k }) lines = proved envs lines := rfl
    have hsucc := serveFrom_succ (fun k => { envs k with disk := disks k }) earlier fuel input
    rw [serveFrom_succ] at h ⊢
    rw [hproved] at hsucc
    rw [hsucc]
    cases hread : readLine input with
    | none => rfl
    | some got =>
      rcases got with ⟨line, rest⟩
      simp only [hread] at h ⊢
      have hsame : handle { envs earlier.length with disk := disks earlier.length }
          (proved envs earlier) line rest =
          handle (envs earlier.length) (proved envs earlier) line rest := by
        refine (handle_within (envs earlier.length) (proved envs earlier) line rest).agree
          (envs earlier.length).disk _ ?_
        rw [scopeOf_proved]
        simpa using h 0 line _ rfl
      rw [hsame]
      split_ifs at h ⊢ with hgo
      · rw [hproved, ih (earlier ++ [line])]
        intro k line' r hk
        have := h (k + 1) line' r (by simpa using hk)
        simpa [Nat.add_assoc, Nat.add_comm 1] using this
      · rfl

end Rounds

end Session

namespace WebUi

theorem scopeOf_ne_chunks (clock : ℕ) (entries : BrowserSessions) (request : HttpRequest) :
    scopeOf clock entries request ≠ .chunks := by
  unfold scopeOf
  split_ifs
  · split <;> simp
  · simp

variable {found : ℕ → WebEnv × BrowserSessions} {fuel k : ℕ} {line input : Bytes}

theorem runHttpFrom_paths {x : Bytes × HttpRequest × WebHandled}
    (h : x ∈ runHttpFrom found fuel k line input) :
    ∀ st ∈ x.2.2.steps, ∀ p ∈ st.paths, ¬ Scope.chunks.Has p := by
  induction fuel generalizing k line input with
  | zero => simp [runHttpFrom] at h
  | succ fuel ih =>
    rw [runHttpFrom] at h
    split at h
    · simp at h
    · next request body hread =>
      rcases List.mem_cons.mp h with rfl | h
      · intro st hst p hp hchunk
        have hw := handle_within (found k).1 (found k).2 request body
        rcases (hw.confined (found k).1.disk).paths st hst p hp with hscope | htemp
        · exact scopeOf_ne_chunks _ _ _ (hscope.unique hchunk)
        · exact hchunk.ne_tempPath _ htemp
      · split_ifs at h
        · split at h
          · simp at h
          · split_ifs at h
            · exact ih h
            · simp at h
        · simp at h

theorem runHttpFrom_agree {disks : ℕ → Disk}
    (h : ∀ k p, ¬ Scope.chunks.Has p → (disks k).lookup p = (found k).1.disk.lookup p) :
    runHttpFrom (fun k => ({ (found k).1 with disk := disks k }, (found k).2)) fuel k line input =
      runHttpFrom found fuel k line input := by
  induction fuel generalizing k line input with
  | zero => rfl
  | succ fuel ih =>
    rw [runHttpFrom, runHttpFrom]
    cases hread : readRequest line input with
    | error reason => rfl
    | ok got =>
      rcases got with ⟨request, body⟩
      have hsame : (handle { (found k).1 with disk := disks k } (found k).2 request body).2 =
          (handle (found k).1 (found k).2 request body).2 := by
        refine (handle_within (found k).1 (found k).2 request body).agree (found k).1.disk _ ?_
        intro p hp
        exact h k p fun hchunk => scopeOf_ne_chunks _ _ _ (hp.unique hchunk)
      simp only [hsame, ih]

end WebUi

namespace Session

/-- Every command of a connection stays within what the lines before it have proved: its store
operations are on the account of the last accepted `LOGIN`, or on chunks after an accepted `AUTH`,
or there are none, and what it answers depends on nothing else of the store. A rejected sign-in is
the last line handled. A connection that begins as a browser's never comes to a command and has
nothing to do with chunks. -/
theorem acts_within_proof (envs : ℕ → SessionEnv) (found : ℕ → WebEnv × BrowserSessions)
    (input : Bytes) :
    match run envs found input with
    | .commands rounds =>
        (∀ k line r, rounds[k]? = some (line, r) → Confined
          (granted envs ((rounds.take k).map Prod.fst) line) (envs k).random r.steps) ∧
        (∀ disks : ℕ → Disk, (∀ k line r, rounds[k]? = some (line, r) →
            (granted envs ((rounds.take k).map Prod.fst) line).Agree (envs k).disk (disks k)) →
          run (fun k => { envs k with disk := disks k }) found input = .commands rounds) ∧
        ∀ k line r, rounds[k]? = some (line, r) → Refused (envs k) line → k + 1 = rounds.length
    | .web rounds =>
        (∀ x ∈ rounds, ∀ st ∈ x.2.2.steps, ∀ p ∈ st.paths, ¬ Scope.chunks.Has p) ∧
        ∀ disks : ℕ → Disk,
          (∀ k p, ¬ Scope.chunks.Has p → (disks k).lookup p = (found k).1.disk.lookup p) →
          run envs (fun k => ({ (found k).1 with disk := disks k }, (found k).2)) input =
            .web rounds := by
  cases hread : readLine input with
  | none =>
    simp [run, hread]
  | some got =>
    rcases got with ⟨line, rest⟩
    by_cases hhttp : looksLikeHttp line = true
    · simp only [run, hread, hhttp, if_true]
      refine ⟨fun x hx => WebUi.runHttpFrom_paths hx, fun disks h => ?_⟩
      rw [WebUi.runHttp, WebUi.runHttpFrom_agree h, WebUi.runHttp]
    · simp only [run, hread, hhttp]
      refine ⟨fun k line r h => ?_, fun disks h => ?_, fun k line r h hrefused => ?_⟩
      · obtain ⟨rest, hr⟩ := serveFrom_round envs [] h
        rw [hr, ← scopeOf_proved, List.length_nil, Nat.zero_add, List.nil_append]
        exact (handle_within (envs k) _ line rest).confined (envs k).disk
      · refine congrArg Served.commands (serveFrom_agree envs [] fun k line r hk => ?_)
        rw [List.length_nil, Nat.zero_add, List.nil_append]
        exact h k line r hk
      · obtain ⟨rest, hr⟩ := serveFrom_round envs [] h
        refine serveFrom_last envs [] h ?_
        rw [hr]
        refine handle_refused _ _ line rest ?_
        simpa using hrefused

end Session

end PersonalCloud
