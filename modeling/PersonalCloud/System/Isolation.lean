import PersonalCloud.Library.Unwinding
import PersonalCloud.System.Service

/-! Accounts cannot reach each other: every path of an account lies in its own two directories, and
whatever others do with their files, nobody else notices. -/
namespace PersonalCloud

open Proto Store Http Transfer

namespace BrowserSessions

variable {m m' : BrowserSessions} {clock later : ℕ}

theorem expireLocked_expireLocked (m : BrowserSessions) (h : clock ≤ later) :
    (m.expireLocked clock).expireLocked later = m.expireLocked later := by
  funext token
  ext entry
  constructor
  · intro hentry
    obtain ⟨hswept, hlate⟩ := Service.expireLocked_eq_some.mp hentry
    exact Service.expireLocked_eq_some.mpr ⟨(Service.expireLocked_eq_some.mp hswept).1, hlate⟩
  · intro hentry
    obtain ⟨hkept, hlate⟩ := Service.expireLocked_eq_some.mp hentry
    exact Service.expireLocked_eq_some.mpr
      ⟨Service.expireLocked_eq_some.mpr ⟨hkept, h.trans_lt hlate⟩, hlate⟩

/-- Two session maps that differ in nothing but what has expired. -/
def SameFrom (clock : ℕ) (m m' : BrowserSessions) : Prop :=
  m'.expireLocked clock = m.expireLocked clock

theorem SameFrom.mono (h : SameFrom clock m m') (hle : clock ≤ later) : SameFrom later m m' := by
  unfold SameFrom at h ⊢
  rw [← expireLocked_expireLocked m' hle, h, expireLocked_expireLocked m hle]

theorem sameFrom_expireLocked (m : BrowserSessions) (h : clock ≤ later) :
    SameFrom later m (m.expireLocked clock) := expireLocked_expireLocked m h

theorem SameFrom.destroy (h : SameFrom clock m m') (token : Bytes) :
    SameFrom clock (m.destroy token) (m'.destroy token) := by
  have hdestroy (m : BrowserSessions) :
      (m.destroy token).expireLocked clock = (m.expireLocked clock).destroy token := by
    funext x
    by_cases hx : x = token
    · subst hx
      simp [BrowserSessions.destroy, expireLocked]
    · simp [BrowserSessions.destroy, expireLocked, hx]
  unfold SameFrom at h ⊢
  rw [hdestroy, hdestroy, h]

theorem SameFrom.create (h : SameFrom clock m m') (issued : ℕ) (token user : Bytes) :
    m'.create clock issued token user = m.create clock issued token user := by
  unfold SameFrom at h
  rw [BrowserSessions.create, BrowserSessions.create, h]

end BrowserSessions

namespace WebUi

open BrowserSessions

variable {m m' : BrowserSessions} {clock later : ℕ}

theorem authenticate_snd_congr (h : SameFrom clock m m') (request : HttpRequest) :
    (authenticate clock m' request).2 = (authenticate clock m request).2 := by
  unfold SameFrom at h
  unfold authenticate
  split
  · rfl
  · simp only [lookup, h]
    split_ifs <;> rfl

theorem authenticate_fst_same (h : SameFrom clock m m') (hle : clock ≤ later)
    (request : HttpRequest) :
    SameFrom later (authenticate clock m request).1 (authenticate clock m' request).1 := by
  unfold authenticate
  split
  · exact h.mono hle
  · simp only [lookup]
    split_ifs
    · exact h.mono hle
    · unfold SameFrom at h
      rw [h]
      exact rfl

variable (env : WebEnv) (request : HttpRequest) (input : Bytes)

theorem serveLogin_snd_congr (m m' : BrowserSessions) :
    (serveLogin env m' request input).2 = (serveLogin env m request input).2 := by
  simp only [serveLogin]
  split_ifs
  · rfl
  · rfl
  · split
    · split_ifs <;> rfl
    · rfl

theorem handle_snd_congr (h : SameFrom env.clock m m') :
    (handle env m' request input).2 = (handle env m request input).2 := by
  rw [handle_snd, handle_snd, authenticate_snd_congr h, serveLogin_snd_congr env request input m m']

theorem handle_fst (m : BrowserSessions) : (handle env m request input).1 =
    if request.method = ascii "GET" ∧
        (request.path = ascii "/" ∨ request.path = ascii "/index.html") then m
    else if request.method = ascii "POST" ∧ request.path = ascii "/api/login" then
      (serveLogin env m request input).1
    else if request.method = ascii "POST" ∧ request.path = ascii "/api/logout" then
      (bearer request).elim m fun token => m.destroy token
    else if kApiPrefix.isPrefixOf request.path then (authenticate env.clock m request).1
    else m := by
  unfold handle
  split_ifs
  · rfl
  · rfl
  · simp only [serveLogout]
    cases bearer request <;> rfl
  · rcases authenticate env.clock m request with ⟨m', _ | user⟩ <;> rfl
  · rfl

theorem serveLogin_fst_same (h : SameFrom env.clock m m') (hle : env.clock ≤ later) :
    SameFrom later (serveLogin env m request input).1 (serveLogin env m' request input).1 := by
  simp only [serveLogin]
  split_ifs
  · exact h.mono hle
  · exact h.mono hle
  · split
    · split_ifs
      · exact h.mono hle
      · exact h.mono hle
      · rw [h.create]
        exact rfl
    · exact h.mono hle

theorem handle_fst_same (h : SameFrom env.clock m m') (hle : env.clock ≤ later) :
    SameFrom later (handle env m request input).1 (handle env m' request input).1 := by
  rw [handle_fst, handle_fst]
  split_ifs
  · exact h.mono hle
  · exact serveLogin_fst_same env request input h hle
  · cases bearer request with
    | none => exact h.mono hle
    | some token => exact (h.mono hle).destroy token
  · exact authenticate_fst_same h hle request
  · exact h.mono hle

theorem handle_fst_disk (m : BrowserSessions) (d : Disk) :
    (handle { env with disk := d } m request input).1 = (handle env m request input).1 := by
  rw [handle_fst, handle_fst]
  rfl

theorem handle_fst_of_isFileRoute (m : BrowserSessions) (h : IsFileRoute request)
    (hle : env.clock ≤ later) : SameFrom later m (handle env m request input).1 := by
  have hpost : request.method ≠ ascii "POST" := by
    have hmethods : ascii "GET" ≠ ascii "POST" ∧ ascii "PUT" ≠ ascii "POST" ∧
        ascii "DELETE" ≠ ascii "POST" := by decide
    rcases h with ⟨hmethod, -⟩ | ⟨-, hmethod | hmethod | hmethod⟩
    · exact hmethod ▸ hmethods.1
    · exact hmethod ▸ hmethods.1
    · exact hmethod ▸ hmethods.2.1
    · exact hmethod ▸ hmethods.2.2
  rw [handle_fst]
  split_ifs with hpage hlogin hlogout hapi
  · exact rfl
  · exact absurd hlogin.1 hpost
  · exact absurd hlogout.1 hpost
  · rcases authenticate_fst env m request with hfst | hfst
    · rw [hfst]
      exact rfl
    · rw [hfst]
      exact sameFrom_expireLocked m hle
  · exact rfl

end WebUi

namespace Service

open Machine Unwinding BrowserSessions

def scopeOf (s : Service) : Event → Scope
  | .command conn _ line _ => Session.scopeOf (s.sessions conn) line
  | .request _ elapsed _ _ line input =>
      match readRequest line input with
      | .error _ => .nothing
      | .ok (request, _) => WebUi.scopeOf (s.now + elapsed) s.entries request

def isFileRequestOf (user : Bytes) (s : Service) (e : Event) : Bool :=
  decide (scopeOf s e = .account user)

/-- An event that does not happen takes its time all the same. -/
def idle (s : Service) : Event → Service
  | .command .. => s
  | .request _ elapsed more _ _ _ => { s with now := s.now + elapsed + more }

/-- Two servers that differ in nothing but the files of one account, the temporary files and what
has expired. -/
structure Alike (user : Bytes) (s t : Service) : Prop where
  sessions : t.sessions = s.sessions
  now : t.now = s.now
  entries : SameFrom s.now s.entries t.entries
  disk : ∀ p, ¬ (Scope.account user).Has p → (∀ random, p ≠ tempPath random) →
    t.disk.lookup p = s.disk.lookup p

section Steps

variable {user : Bytes} {s t : Service}

theorem Alike.agree (h : Alike user s t) {sc : Scope} (hsc : sc ≠ .account user) :
    sc.Agree s.disk t.disk :=
  fun p hp => h.disk p (fun hp' => hsc (hp.unique hp')) hp.ne_tempPath

theorem Alike.web_eq (h : Alike user s t) (env : SessionEnv) (elapsed more : ℕ) (drawn : Bytes) :
    t.web env elapsed more drawn = { s.web env elapsed more drawn with disk := t.disk } := by
  rw [web, h.now, web]

theorem Alike.scopeOf_eq (h : Alike user s t) (e : Event) : scopeOf t e = scopeOf s e := by
  cases e with
  | command conn env line input => rw [scopeOf, h.sessions, scopeOf]
  | request env elapsed more drawn line input =>
    simp only [scopeOf]
    split
    · rfl
    · rw [h.now, WebUi.scopeOf, WebUi.scopeOf,
        WebUi.authenticate_snd_congr (h.entries.mono (Nat.le_add_right _ elapsed))]

theorem step_disk (s : Service) (e : Event) : (step s e).disk = s.disk.run (steps s e) := by
  cases e with
  | command conn env line input => rfl
  | request env elapsed more drawn line input =>
    simp only [step, steps, answer]
    cases readRequest line input with
    | error reason => rfl
    | ok got => rfl

theorem step_now (s : Service) (e : Event) : (step s e).now = (idle s e).now := by
  cases e with
  | command conn env line input => rfl
  | request env elapsed more drawn line input =>
    simp only [step, idle]
    cases readRequest line input with
    | error reason => rfl
    | ok got => rfl

theorem steps_confined (s : Service) (e : Event) :
    ∃ random, Confined (scopeOf s e) random (steps s e) := by
  cases e with
  | command conn env line input =>
    exact ⟨env.random, (Session.handle_within env (s.sessions conn) line input).confined s.disk⟩
  | request env elapsed more drawn line input =>
    refine ⟨env.random, ?_⟩
    simp only [scopeOf, steps, answer]
    cases readRequest line input with
    | error reason => exact .nil
    | ok got =>
      exact (WebUi.handle_within (s.web env elapsed more drawn) s.entries got.1 got.2).confined
        s.disk

/-- Besides its files, a file request of an account changes nothing that matters later. -/
theorem Alike.idle_rel (h : Alike user s t) (e : Event) (he : scopeOf s e = .account user) :
    Alike user (step s e) (idle t e) where
  sessions := by
    cases e with
    | command conn env line input =>
      have hkeep := Session.handle_session_of_scope { env with disk := s.disk } (s.sessions conn)
        line input (by rw [show Session.scopeOf (s.sessions conn) line = _ from he]; nofun)
      simp only [step, idle, hkeep, Function.update_eq_self, h.sessions]
    | request env elapsed more drawn line input =>
      simp only [step, idle]
      cases readRequest line input <;> exact h.sessions
  now := by
    rw [step_now]
    cases e with
    | command conn env line input => exact h.now
    | request env elapsed more drawn line input => simp only [idle, h.now]
  entries := by
    cases e with
    | command conn env line input => exact h.entries
    | request env elapsed more drawn line input =>
      simp only [scopeOf] at he
      simp only [step, idle]
      cases hread : readRequest line input with
      | error reason => simp [hread] at he
      | ok got =>
        rcases got with ⟨request, body⟩
        simp only [hread] at he ⊢
        have hroute : WebUi.IsFileRoute request := by
          by_contra hno
          simp [WebUi.scopeOf, hno] at he
        have hswept := WebUi.handle_fst_of_isFileRoute (s.web env elapsed more drawn) request body
          s.entries hroute (Nat.le_add_right (s.now + elapsed) more)
        have hlater : s.now ≤ s.now + elapsed + more := by omega
        exact (h.entries.mono hlater).trans hswept.symm
  disk p hp htemp := by
    obtain ⟨random, hsteps⟩ := steps_confined s e
    have hidle : (idle t e).disk = t.disk := by cases e <;> rfl
    rw [he] at hsteps
    rw [step_disk, hsteps.frame hp htemp, hidle, h.disk p hp htemp]

/-- An event of anyone else is answered alike, and has the same effect. -/
theorem Alike.answer_eq (h : Alike user s t) (e : Event) (he : scopeOf s e ≠ .account user) :
    answer t e = answer s e := by
  cases e with
  | command conn env line input =>
    simp only [answer, h.sessions]
    exact congrArg Reply.command
      ((Session.handle_within env (s.sessions conn) line input).agree s.disk _ (h.agree he))
  | request env elapsed more drawn line input =>
    simp only [scopeOf, answer] at he ⊢
    cases hread : readRequest line input with
    | error reason => rfl
    | ok got =>
      rcases got with ⟨request, body⟩
      simp only [hread] at he ⊢
      have hdisk := (WebUi.handle_within (s.web env elapsed more drawn) s.entries request
        body).agree s.disk _ (h.agree he)
      rw [h.web_eq, WebUi.handle_snd_congr _ request body
        (h.entries.mono (Nat.le_add_right _ elapsed))]
      exact congrArg Reply.request hdisk

theorem Alike.step_rel (h : Alike user s t) (e : Event) (he : scopeOf s e ≠ .account user) :
    Alike user (step s e) (step t e) where
  sessions := by
    cases e with
    | command conn env line input =>
      have hsame := Reply.command.inj (h.answer_eq _ he)
      simp only [step]
      rw [hsame, h.sessions]
    | request env elapsed more drawn line input =>
      simp only [step]
      cases readRequest line input <;> exact h.sessions
  now := by
    rw [step_now, step_now]
    cases e with
    | command conn env line input => exact h.now
    | request env elapsed more drawn line input => simp only [idle, h.now]
  entries := by
    cases e with
    | command conn env line input => exact h.entries
    | request env elapsed more drawn line input =>
      simp only [step]
      cases readRequest line input with
      | error reason => exact h.entries.mono (by dsimp only; omega)
      | ok got =>
        rw [h.web_eq]
        dsimp only
        rw [WebUi.handle_fst_disk (s.web env elapsed more drawn) _ _ t.entries]
        exact WebUi.handle_fst_same (s.web env elapsed more drawn) _ _
          (h.entries.mono (Nat.le_add_right _ elapsed)) (Nat.le_add_right _ more)
  disk p hp htemp := by
    obtain ⟨random, hsteps⟩ := steps_confined s e
    rw [step_disk, step_disk, steps, steps, h.answer_eq e he]
    exact hsteps.congr htemp (h.disk p hp htemp)

theorem alike_refl (user : Bytes) (s : Service) : Alike user s s :=
  ⟨rfl, rfl, rfl, fun _ _ _ => rfl⟩

theorem unwinds_alike (user : Bytes) :
    Unwinds step idle answer (isFileRequestOf user) (Alike user) where
  hidden_eq e h := by rw [isFileRequestOf, h.scopeOf_eq e, isFileRequestOf]
  answer_eq e h he := h.answer_eq e (of_decide_eq_false he)
  step_rel e h he := h.step_rel e (of_decide_eq_false he)
  idle_rel e h he := h.idle_rel e (of_decide_eq_true he)

end Steps

/-- One component of a path, on any system the store may live on. -/
structure IsComponent (c : Bytes) : Prop where
  nonempty : c ≠ []
  not_dot : c ≠ ascii "."
  not_dots : c ≠ ascii ".."
  plain : ∀ x ∈ c, x ≠ 0 ∧ x ≠ 47 ∧ x ≠ 92

theorem isComponent_of_isSafeName {name : Bytes} (h : isSafeName name = true) :
    IsComponent name := by
  unfold isSafeName at h
  split_ifs at h with hlen hdots
  push Not at hlen hdots
  refine ⟨fun he => hlen.1 (by simp [he]), hdots.1, hdots.2, fun x hx => ?_⟩
  have hsafe := List.all_eq_true.mp h x hx
  refine ⟨?_, ?_, ?_⟩ <;>
  · rintro rfl
    exact absurd hsafe (by decide)

theorem isComponent_of_isValidUsername {user : Bytes} (h : isValidUsername user = true) :
    IsComponent user := by
  unfold isValidUsername at h
  simp only [Bool.and_eq_true, List.all_eq_true] at h
  obtain ⟨⟨⟨hnonempty, -⟩, hhead⟩, hall⟩ := h
  have hdot : user.head? ≠ some 46 := by
    intro he
    rw [he] at hhead
    exact absurd hhead (by decide)
  refine ⟨?_, ?_, ?_, fun x hx => ?_⟩
  · rintro rfl
    exact absurd hnonempty (by decide)
  · rintro rfl
    exact hdot (by decide)
  · rintro rfl
    exact hdot (by decide)
  · have hplain := hall x hx
    refine ⟨?_, ?_, ?_⟩ <;>
    · rintro rfl
      exact absurd hplain (by decide)

theorem isComponent_of_isSafeChunkId {id : Bytes} (h : isSafeChunkId id = true) :
    IsComponent id := by
  unfold isSafeChunkId at h
  simp only [decide_eq_true_eq, List.all_eq_true] at h
  obtain ⟨hlen, hall⟩ := h
  refine ⟨?_, ?_, ?_, fun x hx => ?_⟩
  · rintro rfl
    exact absurd hlen (by decide)
  · rintro rfl
    exact absurd hlen (by decide)
  · rintro rfl
    exact absurd hlen (by decide)
  · have hhex := hall x hx
    refine ⟨?_, ?_, ?_⟩ <;>
    · rintro rfl
      exact absurd hhex (by decide)

theorem IsComponent.append_tagExt {name : Bytes} (h : IsComponent name) :
    IsComponent (name ++ kTagExt) := by
  have hlen : ∀ short : Bytes, short.length ≤ 2 → name ++ kTagExt ≠ short := by
    intro short hshort he
    have := congrArg List.length he
    rw [List.length_append, show kTagExt.length = 4 by decide] at this
    omega
  refine ⟨hlen _ (by decide), hlen _ (by decide), hlen _ (by decide), fun x hx => ?_⟩
  rcases List.mem_append.mp hx with hx | hx
  · exact h.plain x hx
  · exact (show ∀ x ∈ kTagExt, x ≠ 0 ∧ x ≠ 47 ∧ x ≠ 92 by decide) x hx

theorem has_account {user : Bytes} {p : Path} (h : (Scope.account user).Has p) :
    IsComponent user ∧ ∃ c, IsComponent c ∧
      (p = [kUsersDir, user, kFilesDir, c] ∨ p = [kUsersDir, user, kMetaDir, c]) := by
  obtain ⟨huser, name, hname, rfl | rfl⟩ := h
  · exact ⟨isComponent_of_isValidUsername huser, name, isComponent_of_isSafeName hname, .inl rfl⟩
  · exact ⟨isComponent_of_isValidUsername huser, name ++ kTagExt,
      (isComponent_of_isSafeName hname).append_tagExt, .inr rfl⟩

theorem has_chunks {p : Path} (h : Scope.chunks.Has p) :
    ∃ c, IsComponent c ∧ p = [kChunksDir, c] := by
  obtain ⟨id, hid, rfl⟩ := h
  exact ⟨id, isComponent_of_isSafeChunkId hid, rfl⟩

/-- Where the paths made from names off the network lie, and that no two of them meet. -/
structure PathsApart : Prop where
  account : ∀ user p, accountDir user = some p → IsComponent user ∧ p = [kUsersDir, user]
  file : ∀ user name p, filePath user name = some p →
    IsComponent user ∧ IsComponent name ∧ p = [kUsersDir, user, kFilesDir, name]
  sidecar : ∀ user name p, filePath user name = some p →
    ∃ c, IsComponent c ∧ tagPath user name = [kUsersDir, user, kMetaDir, c]
  chunk : ∀ id p, chunkPath id = some p → IsComponent id ∧ p = [kChunksDir, id]
  file_inj : ∀ user user' name name' p, filePath user name = some p →
    filePath user' name' = some p → user = user' ∧ name = name'
  sidecar_inj : ∀ user user' name name', tagPath user name = tagPath user' name' →
    user = user' ∧ name = name'
  chunk_inj : ∀ id id' p, chunkPath id = some p → chunkPath id' = some p → id = id'
  file_ne_sidecar : ∀ user user' name name' p, filePath user name = some p →
    p ≠ tagPath user' name'
  file_ne_chunk : ∀ user name id p, filePath user name = some p → chunkPath id ≠ some p
  sidecar_ne_chunk : ∀ user name id, chunkPath id ≠ some (tagPath user name)

theorem pathsApart : PathsApart where
  account user p h := by
    unfold accountDir at h
    split_ifs at h with huser
    exact ⟨isComponent_of_isValidUsername huser, (Option.some.inj h).symm⟩
  file user name p h := by
    obtain ⟨huser, hname, hp⟩ := filePath_eq_some.mp h
    exact ⟨isComponent_of_isValidUsername huser, isComponent_of_isSafeName hname, hp⟩
  sidecar user name p h := by
    obtain ⟨-, hname, -⟩ := filePath_eq_some.mp h
    exact ⟨name ++ kTagExt, (isComponent_of_isSafeName hname).append_tagExt, rfl⟩
  chunk id p h := by
    obtain ⟨hid, hp⟩ := chunkPath_eq_some.mp h
    exact ⟨isComponent_of_isSafeChunkId hid, hp⟩
  file_inj user user' name name' p h h' := filePath_inj h h'
  sidecar_inj user user' name name' h := tagPath_inj h
  chunk_inj id id' p h h' := by
    obtain ⟨-, rfl⟩ := chunkPath_eq_some.mp h
    obtain ⟨-, hp⟩ := chunkPath_eq_some.mp h'
    simpa using hp
  file_ne_sidecar user user' name name' p h := filePath_ne_tagPath h
  file_ne_chunk user name id p h h' :=
    absurd ((has_filePath h).unique (has_chunkPath h')) nofun
  sidecar_ne_chunk user name id h := by
    obtain ⟨-, hp⟩ := chunkPath_eq_some.mp h
    simp [tagPath] at hp

/-- What an event answers is the same on every store that looks the same within its scope. -/
theorem answer_agree (s : Service) (e : Event) {d : Disk} (h : (scopeOf s e).Agree s.disk d) :
    answer { s with disk := d } e = answer s e := by
  cases e with
  | command conn env line input =>
    exact congrArg Reply.command
      ((Session.handle_within env (s.sessions conn) line input).agree s.disk d h)
  | request env elapsed more drawn line input =>
    simp only [scopeOf, answer] at h ⊢
    cases hread : readRequest line input with
    | error reason => rfl
    | ok got =>
      simp only [hread] at h ⊢
      exact congrArg Reply.request
        ((WebUi.handle_within (s.web env elapsed more drawn) s.entries got.1 got.2).agree s.disk d h)

/-- Accounts cannot reach each other: their paths are apart, an event of one account names and
depends on no path but its own, and no account can tell whether the file requests of another have
happened. -/
theorem accounts_isolated :
    PathsApart ∧
    (∀ s e, (∀ st ∈ steps s e, ∀ p ∈ st.paths, (∃ random, p = tempPath random) ∨
        (∃ user c, scopeOf s e = .account user ∧ IsComponent user ∧ IsComponent c ∧
          (p = [kUsersDir, user, kFilesDir, c] ∨ p = [kUsersDir, user, kMetaDir, c])) ∨
        ∃ c, scopeOf s e = .chunks ∧ IsComponent c ∧ p = [kChunksDir, c]) ∧
      ∀ d, (scopeOf s e).Agree s.disk d → answer { s with disk := d } e = answer s e) ∧
    ∀ (s : Service) (es : List Event) (u v : Bytes), v ≠ u →
      let all := run step s es
      let without := run (pass step idle (isFileRequestOf u)) s es
      seen answer (isFileRequestOf u) (pass step idle (isFileRequestOf u)) s es =
          seen answer (isFileRequestOf u) step s es ∧
        (∀ name, (filePath v name).bind without.disk.content =
            (filePath v name).bind all.disk.content ∧
          fileInfo without.disk v name = fileInfo all.disk v name) ∧
        listFiles without.disk v = listFiles all.disk v ∧
        ∀ id, (chunkPath id).bind without.disk.content = (chunkPath id).bind all.disk.content := by
  refine ⟨pathsApart, fun s e => ⟨fun st hst p hp => ?_, fun d => answer_agree s e⟩, ?_⟩
  · obtain ⟨random, hsteps⟩ := steps_confined s e
    rcases hsteps.paths st hst p hp with hscope | htemp
    · cases hsc : scopeOf s e with
      | nothing =>
        rw [hsc] at hscope
        exact hscope.elim
      | account user =>
        rw [hsc] at hscope
        obtain ⟨huser, c, hc, hpath⟩ := has_account hscope
        exact .inr (.inl ⟨user, c, rfl, huser, hc, hpath⟩)
      | chunks =>
        rw [hsc] at hscope
        obtain ⟨c, hc, hpath⟩ := has_chunks hscope
        exact .inr (.inr ⟨c, rfl, hc, hpath⟩)
    · exact .inl ⟨random, htemp⟩
  · intro s es u v hv all without
    have halike : Alike u all without := (unwinds_alike u).run_rel (alike_refl u s) es
    have hfiles : (Scope.account v).Agree all.disk without.disk :=
      halike.agree fun h => hv (Scope.account.inj h)
    have hchunks : Scope.chunks.Agree all.disk without.disk := halike.agree nofun
    exact ⟨(unwinds_alike u).seen_eq (alike_refl u s) es,
      fun name => ⟨getContent_agree hfiles, fileInfo_agree hfiles⟩, listFiles_agree hfiles,
      fun id => getChunk_agree hchunks⟩

end Service

end PersonalCloud
