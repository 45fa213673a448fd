import PersonalCloud.System.Conversations

/-! What the end of a command says about the server: how often it has done what the command asks
for, for which account, and what it held at that moment. -/
namespace PersonalCloud

open Proto Channel Store Dialogue

namespace Remote

abbrev Log := List (SessionState × Question × Except String Reported)

namespace Log

def told (l : Log) : List (SessionState × Call × Reported) :=
  l.filterMap fun x =>
    match x with
    | (_, .call .quit, _) => none
    | (s, .call c, .ok report) => some (s, c, report)
    | _ => none

/-- The log has a sign-in that was confirmed. -/
def SignsIn (l : Log) (user password : Bytes) : Prop :=
  ∃ s report, (s, Question.login user password, Except.ok report) ∈ l

theorem told_append (l l' : Log) : told (l ++ l') = told l ++ told l' := List.filterMap_append

theorem told_ok {c : Call} (hquit : c ≠ .quit) (s : SessionState) (report : Reported) (l : Log) :
    told ((s, .call c, .ok report) :: l) = (s, c, report) :: told l := by
  cases c with
  | quit => exact absurd rfl hquit
  | stat | putFile | getFile | delFile | putChunk | getChunk | delChunk | list => rfl

theorem told_error (c : Call) (s : SessionState) (e : String) (l : Log) :
    told ((s, .call c, .error e) :: l) = told l := by
  cases c <;> rfl

end Log

/-- What has an effect on the map or is answered out of it. -/
def effective (ms : List Moment) : List Moment := ms.filter fun m => m.request ≠ .other

/-- The call is carried out at this moment, in the given session, and its report is the truth. -/
structure Moment.Tells (m : Moment) (s : SessionState) (c : Call) (report : Reported) : Prop where
  session : m.session = s
  permitted : c.Permitted s
  request : m.request = c.request s.user m.env.now
  truth : ∃ res, m.vault.Answers m.request res ∧ report = reportOf res

variable {ms : List Moment} {l : Log} {user password : Bytes}

theorem request_ne_other {c : Call} (h : c ≠ .quit) (user : Bytes) (now : ℤ) :
    c.request user now ≠ .other := by
  cases c with
  | quit => exact absurd rfl h
  | stat | putFile | getFile | delFile | putChunk | getChunk | delChunk | list => simp [Call.request]

theorem effective_of_forall₂ (h : List.Forall₂ (fun (m : Moment)
    (x : SessionState × Question × Except String Reported) =>
      m.session = x.1 ∧ x.2.1.AnsweredAt m x.2.2) ms l) :
    List.Forall₂ (fun (m : Moment) (x : SessionState × Call × Reported) => m.Tells x.1 x.2.1 x.2.2)
      (effective ms) l.told := by
  induction h with
  | nil => exact .nil
  | @cons m x ms l h _ ih =>
    obtain ⟨s, q, a⟩ := x
    obtain ⟨hsession, hanswered⟩ := h
    have hother (hrequest : m.request = .other) (htold : Log.told ((s, q, a) :: l) = Log.told l) :
        List.Forall₂ (fun (m : Moment) (x : SessionState × Call × Reported) =>
          m.Tells x.1 x.2.1 x.2.2) (effective (m :: ms)) (Log.told ((s, q, a) :: l)) := by
      rw [htold, effective, List.filter_cons_of_neg (by simpa using hrequest)]
      exact ih
    have htruly := hanswered.truly
    cases q with
    | ping | hello => exact hother htruly rfl
    | login | auth => exact hother htruly.1 rfl
    | call c =>
      rcases htruly with ⟨hpermitted, hrequest, htruth⟩ | ⟨-, hrequest, e, rfl⟩
      · by_cases hquit : c = .quit
        · subst hquit
          exact hother hrequest rfl
        obtain ⟨res, hres, rfl⟩ := htruth.resolve_left hquit
        have hne : m.request ≠ .other := hrequest ▸ request_ne_other hquit _ _
        rw [Log.told_ok hquit, effective, List.filter_cons_of_pos (by simpa using hne)]
        refine .cons ⟨hsession, hsession ▸ hpermitted, hsession ▸ hrequest, res, hres, rfl⟩ ih
      · exact hother hrequest (Log.told_error c s e l)

/-- The requests that reached the map are the calls that were told something. -/
theorem effective_of_carried (h : Wire.Carried ms l) :
    List.Forall₂ (fun (m : Moment) (x : SessionState × Call × Reported) => m.Tells x.1 x.2.1 x.2.2)
      (effective ms) l.told := by
  have hsame : effective ms = effective (ms.filter fun m => m.handled.reply ≠ []) := by
    rw [effective, effective, List.filter_filter]
    refine List.filter_congr fun m hm => ?_
    have hunanswered := h.unanswered m hm
    by_cases hreply : m.handled.reply = []
    · simp [hreply, hunanswered hreply]
    · simp [hreply]
  rw [hsame]
  exact effective_of_forall₂ h.answered

theorem error_of_lost {q : Question} {b : Except String Reported} (h : protocol.lost q b)
    (hquit : q ≠ .call .quit) : ∃ e, b = .error e := h.resolve_right fun hc => hquit hc.1

/-- Before it has signed in a client is told nothing, and then the session is the one its sign-in
leads to. -/
theorem ensures_connectWith {credential : Bytes} {missing : String} {q : Question}
    (hq : ∀ c, q ≠ .call c) {s : SessionState} (hsend : q.Sendable s) :
    (connectWith credential missing q).Ensures protocol (some s) fun l s' r => Log.told l = [] ∧
      (r = .ok () → ∃ report, q.Answers (.ok report) ∧ s' = some (q.leads s (.ok report)) ∧
        (s, q, .ok report) ∈ l) := by
  have htold (a : Except String Reported) : Log.told [(s, .hello, a)] = [] := rfl
  have htold' (a b : Except String Reported) : Log.told [(s, .hello, a), (s, q, b)] = [] := by
    cases q with
    | call c => exact absurd rfl (hq c)
    | ping | hello | login | auth => rfl
  rw [connectWith]
  refine ⟨trivial, fun a _ => ?_, fun b hb => ?_, fun a b _ hb => ?_⟩
  · cases a with
    | error e => exact ⟨rfl, by simp⟩
    | ok report =>
      simp only
      split_ifs with hempty
      · exact ⟨rfl, by simp⟩
      refine ⟨hsend, fun a ha => ?_, fun b hb => ?_, fun a b _ hb => ?_⟩
      · cases a with
        | error e => exact ⟨htold' _ _, by simp [Except.map]⟩
        | ok report' =>
          exact ⟨htold' _ _, fun _ => ⟨report', ha, rfl, by simp [protocol, Question.leads]⟩⟩
      · obtain ⟨e, rfl⟩ := error_of_lost hb (hq .quit)
        exact ⟨htold _, by simp [Except.map]⟩
      · obtain ⟨e, rfl⟩ := error_of_lost hb (hq .quit)
        exact ⟨htold' _ _, by simp [Except.map]⟩
  · obtain ⟨e, rfl⟩ := error_of_lost hb (by simp)
    exact ⟨rfl, by simp⟩
  · obtain ⟨e, rfl⟩ := error_of_lost hb (by simp)
    exact ⟨rfl, by simp⟩

theorem ensures_connectFiles (hline : (Question.login user password).Sendable {}) (s : SessionState) :
    (connectFiles user password).Ensures protocol (some s) fun l s' r => Log.told l = [] ∧
      (r = .ok () → ∃ name, signedName user password = some name ∧
        s' = some { s with user := name, loggedIn := true } ∧ Log.SignsIn l user password) := by
  refine (ensures_connectWith (q := .login user password) (s := s) (by simp) hline).mono ?_
  rintro l s' r ⟨htold, hconnected⟩
  refine ⟨htold, fun hr => ?_⟩
  obtain ⟨report, hanswers, rfl, hmem⟩ := hconnected hr
  obtain ⟨name, hname⟩ := Option.isSome_iff_exists.mp (hanswers report rfl)
  exact ⟨name, hname, by simp [Question.leads, hname], s, report, hmem⟩

section CallAlone

variable {G : Log → SessionState → Prop} {c : Call}

theorem sendable_quit (s : SessionState) : (Question.call .quit).Sendable s :=
  ⟨trivial, by decide, fun h => h.elim⟩

theorem ensures_quitWith {R : Type} {result : R} {s : SessionState} {Post : Log → R → Prop}
    (h : ∀ l, Log.told l = [] → Post l result) :
    (quitWith result).Ensures protocol (some s) fun l _ => Post l :=
  ⟨sendable_quit s, fun _ _ => h _ rfl, fun _ _ => h _ rfl, fun _ _ _ _ => h _ rfl⟩

/-- The call is served once at most, in the session the connection has come to, and its report is
given only when it was served. -/
theorem ensures_callAlone {connect : Client (Except String Unit)} {s : SessionState}
    (hquit : c ≠ .quit) (hG : ∀ l l' s, G l s → G (l ++ l') s)
    (hconnect : connect.Ensures protocol (some s) fun l s' r => Log.told l = [] ∧
      (r = .ok () → ∃ s, s' = some s ∧ G l s))
    (hsend : ∀ l s, G l s → (Question.call c).Sendable s) :
    (callAlone connect c).Ensures protocol (some s) fun l _ r =>
      (Log.told l = [] ∨ ∃ s report, G l s ∧ Log.told l = [(s, c, report)]) ∧
      ∀ report, r = .ok (.ok report) → ∃ s, G l s ∧ Log.told l = [(s, c, report)] := by
  refine ensures_bind.mpr (hconnect.mono ?_)
  rintro l s' r ⟨hnone, hconnected⟩
  cases r with
  | error e =>
    simp only [Ensures, List.append_nil]
    exact ⟨.inl hnone, by simp⟩
  | ok u =>
    obtain ⟨s, rfl, hs⟩ := hconnected rfl
    have hserved (report : Reported) (l' : Log) (hl' : Log.told l' = []) :
        Log.told (l ++ (s, .call c, .ok report) :: l') = [(s, c, report)] := by
      rw [Log.told_append, hnone, Log.told_ok hquit, hl', List.nil_append]
    have hrefused (e : String) : Log.told (l ++ [(s, .call c, .error e)]) = [] := by
      rw [Log.told_append, hnone, Log.told_error]
      rfl
    refine ⟨hsend l s hs, fun a _ => ?_, fun b hb => ?_, fun a b _ hb => ?_⟩
    · cases a with
      | error e => exact ⟨.inl (hrefused e), by simp⟩
      | ok report =>
        refine ensures_quitWith fun l' hl' => ?_
        have htold := hserved report l' hl'
        refine ⟨.inr ⟨s, report, hG l _ s hs, htold⟩, ?_⟩
        rintro report' ⟨⟩
        exact ⟨s, hG l _ s hs, htold⟩
    · obtain ⟨e, rfl⟩ := error_of_lost hb (by simpa using hquit)
      simp only [Ensures, List.append_nil]
      exact ⟨.inl hnone, by simp⟩
    · obtain ⟨e, rfl⟩ := error_of_lost hb (by simpa using hquit)
      cases a with
      | error e' => exact ⟨.inl (hrefused e'), by simp⟩
      | ok report => exact ⟨.inr ⟨s, report, hG l _ s hs, hserved report [] rfl⟩, by simp⟩

end CallAlone

/-- The server has verified the password for the account, both as it reads them. -/
def SignedIn (ms : List Moment) (user password name : Bytes) : Prop :=
  ∃ pw, split (sp user password) = [name, pw] ∧ ∃ m ∈ ms, m.env.verify name pw = true

theorem exists_of_forall₂_mem {α β : Type*} {P : α → β → Prop} {as : List α} {bs : List β}
    (h : List.Forall₂ P as bs) {b : β} (hb : b ∈ bs) : ∃ a ∈ as, P a b := by
  obtain ⟨i, hi, rfl⟩ := List.getElem_of_mem hb
  exact ⟨_, List.getElem_mem (h.length_eq ▸ hi), List.forall₂_iff_get.mp h |>.2 i _ hi⟩

theorem exists_append_of_forall₂ {α β : Type*} {P : α → β → Prop} {as : List α} {bs cs : List β}
    (h : List.Forall₂ P as (bs ++ cs)) :
    ∃ as₁ as₂, as = as₁ ++ as₂ ∧ List.Forall₂ P as₁ bs ∧ List.Forall₂ P as₂ cs :=
  ⟨_, _, (List.take_append_drop bs.length as).symm, List.forall₂_take_append as bs cs h,
    List.forall₂_drop_append as bs cs h⟩

theorem exists_singleton_of_forall₂ {α β : Type*} {P : α → β → Prop} {as : List α} {b : β}
    (h : List.Forall₂ P as [b]) : ∃ a, P a b ∧ as = [a] := by
  obtain ⟨a, rest, ha, hrest, rfl⟩ := List.forall₂_cons_right_iff.mp h
  exact ⟨a, ha, by rw [List.forall₂_nil_right_iff.mp hrest]⟩

/-- The session of an account that has just signed in. -/
def signedSession (name : Bytes) : SessionState := ⟨name, true, false⟩

/-- The session is the one of the account the client has signed in to. -/
def Signs (user password : Bytes) (l : Log) (s : SessionState) : Prop :=
  ∃ name, signedName user password = some name ∧ s = signedSession name ∧ Log.SignsIn l user password

theorem Signs.append {s : SessionState} (h : Signs user password l s) (l' : Log) :
    Signs user password (l ++ l') s := by
  obtain ⟨name, hname, hs, s', report, hmem⟩ := h
  exact ⟨name, hname, hs, s', report, List.mem_append_left l' hmem⟩

theorem signedIn_of_signs (h : Wire.Carried ms l) {s : SessionState}
    (hs : Signs user password l s) :
    ∃ name, s = signedSession name ∧ SignedIn ms user password name := by
  obtain ⟨name, hname, rfl, s', report, hmem⟩ := hs
  obtain ⟨m, hm, -, hanswered⟩ := exists_of_forall₂_mem h.answered hmem
  obtain ⟨name', pw, hfields, hverify⟩ := hanswered.truly.2 report rfl
  obtain rfl : name' = name := by
    rw [signedName, hfields] at hname
    exact Option.some.inj hname
  exact ⟨name', rfl, pw, hfields, m, List.mem_of_mem_filter hm, hverify⟩

/-- The session is the one of an account whose password the server has verified. -/
def SignedAs (ms : List Moment) (user password : Bytes) (s : SessionState) : Prop :=
  ∃ name, s = signedSession name ∧ SignedIn ms user password name

theorem ensures_connectFiles_signs (hline : (Question.login user password).Sendable {}) :
    (connectFiles user password).Ensures protocol (some {}) fun l s' r => Log.told l = [] ∧
      (r = .ok () → ∃ s, s' = some s ∧ Signs user password l s) := by
  refine (ensures_connectFiles hline {}).mono ?_
  rintro l s' r ⟨htold, hconnected⟩
  refine ⟨htold, fun hr => ?_⟩
  obtain ⟨name, hname, rfl, hsigns⟩ := hconnected hr
  exact ⟨_, rfl, name, hname, rfl, hsigns⟩

/-- The token is the one of the server. -/
def TokenShown (ms : List Moment) (token : Bytes) : Prop := ∃ m ∈ ms, split token = [m.env.token]

/-- The session of a machine that has just shown the token. -/
def trustedSession : SessionState := ⟨[], false, true⟩

/-- The session is the one of a machine whose token was confirmed. -/
def Trusts (token : Bytes) (l : Log) (s : SessionState) : Prop :=
  s = trustedSession ∧ ∃ s' report, (s', Question.auth token, Except.ok report) ∈ l

theorem Trusts.append {token : Bytes} {s : SessionState} (h : Trusts token l s) (l' : Log) :
    Trusts token (l ++ l') s := by
  obtain ⟨hs, s', report, hmem⟩ := h
  exact ⟨hs, s', report, List.mem_append_left l' hmem⟩

theorem tokenShown_of_trusts {token : Bytes} (h : Wire.Carried ms l) {s : SessionState}
    (hs : Trusts token l s) : s = trustedSession ∧ TokenShown ms token := by
  obtain ⟨rfl, s', report, hmem⟩ := hs
  obtain ⟨m, hm, -, hanswered⟩ := exists_of_forall₂_mem h.answered hmem
  exact ⟨rfl, m, List.mem_of_mem_filter hm, hanswered.truly.2 report rfl⟩

theorem ensures_connectChunks {token : Bytes} (hline : (Question.auth token).Sendable {}) :
    (connectChunks token).Ensures protocol (some {}) fun l s' r => Log.told l = [] ∧
      (r = .ok () → ∃ s, s' = some s ∧ Trusts token l s) := by
  refine (ensures_connectWith (q := .auth token) (s := {}) (by simp) hline).mono ?_
  rintro l s' r ⟨htold, hconnected⟩
  refine ⟨htold, fun hr => ?_⟩
  obtain ⟨report, -, rfl, hmem⟩ := hconnected hr
  exact ⟨_, rfl, rfl, _, report, hmem⟩

open Wire Machine

variable {R : Type} {conn : ℕ} {s : Service} {es : List Wire.Event} {c : Call}

/-- One request was carried out, in a session of which `P` holds, and its report is the truth about
that moment. -/
def ToldOnce (ms : List Moment) (P : SessionState → Prop) (c : Call) (report : Reported) : Prop :=
  ∃ m s, effective ms = [m] ∧ m.Tells s c report ∧ P s

theorem toldOnce_of_told (h : Carried ms l) {P : SessionState → Prop} {s : SessionState}
    {report : Reported} (hs : P s) (htold : Log.told l = [(s, c, report)]) :
    ToldOnce ms P c report := by
  have heffective := effective_of_carried h
  rw [htold] at heffective
  obtain ⟨m, hm, hms⟩ := exists_singleton_of_forall₂ heffective
  exact ⟨m, s, hms, hm, hs⟩

/-- A client that makes one call has it carried out once at most, and reports what was found just
then, in the session its handshake has come to. -/
theorem callAlone_told {connect : Client (Except String Unit)} {G : Log → SessionState → Prop}
    (P : List Moment → SessionState → Prop) (f : Except String (Except String Reported) → R)
    (hquit : c ≠ .quit) (hG : ∀ l l' s, G l s → G (l ++ l') s)
    (hconnect : connect.Ensures protocol (some {}) fun l s' r => Log.told l = [] ∧
      (r = .ok () → ∃ s, s' = some s ∧ G l s))
    (hsend : ∀ l s, G l s → (Question.call c).Sendable s)
    (hproved : ∀ ms l s, Carried ms l → G l s → P ms s)
    (hv : (vaultOf s.disk).Readable) (hfresh : s.sessions conn = {})
    (hes : Along (step conn) (Fair conn) (start s ((callAlone connect c).map f)) es) :
    let w := start s ((callAlone connect c).map f)
    let ms := moments conn w es
    (effective ms = [] ∨ ∃ report, ToldOnce ms (P ms) c report) ∧
    ∀ r, (run (step conn) w es).client = .done r → ∃ x, r = f x ∧
      ∀ report, x = .ok (.ok report) → ToldOnce ms (P ms) c report := by
  intro w ms
  have hensures : ((callAlone connect c).map f).Ensures protocol (some (s.sessions conn))
      fun l _ r =>
        (Log.told l = [] ∨ ∃ s report, G l s ∧ Log.told l = [(s, c, report)]) ∧
        ∃ x, r = f x ∧ ∀ report, x = .ok (.ok report) →
          ∃ s, G l s ∧ Log.told l = [(s, c, report)] := by
    rw [hfresh]
    exact ensures_map.mpr ((ensures_callAlone hquit hG hconnect hsend).mono
      fun l s' x h => ⟨h.1, x, rfl, h.2⟩)
  obtain ⟨served, hcarried, ⟨r, hnow, -⟩, hend⟩ := conversation_ensures hv hensures hes
  refine ⟨?_, fun r hr => ?_⟩
  · rcases hnow with hnone | ⟨s', report, hs, htold⟩
    · have heffective := effective_of_carried hcarried
      rw [hnone] at heffective
      exact .inl (List.forall₂_nil_right_iff.mp heffective)
    · exact .inr ⟨report, toldOnce_of_told hcarried (hproved _ _ _ hcarried hs) htold⟩
  · obtain ⟨-, x, rfl, hx⟩ := hend r hr
    refine ⟨x, rfl, fun report hreport => ?_⟩
    obtain ⟨s', hs, htold⟩ := hx report hreport
    exact toldOnce_of_told hcarried (hproved _ _ _ hcarried hs) htold

theorem callFiles_told (f : Except String (Except String Reported) → R) (hquit : c ≠ .quit)
    (hline : (Question.login user password).Sendable {})
    (hsend : ∀ name, (Question.call c).Sendable (signedSession name))
    (hv : (vaultOf s.disk).Readable) (hfresh : s.sessions conn = {})
    (hes : Along (step conn) (Fair conn)
      (start s ((callAlone (connectFiles user password) c).map f)) es) :
    let w := start s ((callAlone (connectFiles user password) c).map f)
    let ms := moments conn w es
    (effective ms = [] ∨ ∃ report, ToldOnce ms (SignedAs ms user password) c report) ∧
    ∀ r, (run (step conn) w es).client = .done r → ∃ x, r = f x ∧
      ∀ report, x = .ok (.ok report) → ToldOnce ms (SignedAs ms user password) c report := by
  refine callAlone_told (G := Signs user password) (fun ms => SignedAs ms user password) f hquit
    (fun l l' s h => h.append l') (ensures_connectFiles_signs hline) ?_
    (fun ms l s h hs => signedIn_of_signs h hs) hv hfresh hes
  rintro l s ⟨name, -, rfl, -⟩
  exact hsend name

theorem length_sp_name_le {cmd name : Bytes} (hcmd : cmd.length ≤ 16) (hname : isSafeName name = true) :
    (sp cmd name).length ≤ Config.kMaxLineLen := by
  have hlen := length_le_of_isSafeName hname
  simp only [sp, List.length_append, List.length_cons, Config.kMaxLineLen]
  omega

theorem length_of_isSafeChunkId {id : Bytes} (h : isSafeChunkId id = true) : id.length = 64 := by
  unfold isSafeChunkId at h
  simp only [decide_eq_true_eq] at h
  exact h.1

/-- The client asked for one thing, once, for an account it has signed in to. -/
def AskedOnce (ms : List Moment) (user password : Bytes) (request : Bytes → Vault.Request)
    (P : Bytes → Moment → Prop) : Prop :=
  ∃ m account, effective ms = [m] ∧ m.request = request account ∧
    SignedIn ms user password account ∧ P account m

theorem AskedOnce.mono {request : Bytes → Vault.Request} {P P' : Bytes → Moment → Prop}
    (h : AskedOnce ms user password request P) (himp : ∀ account m, P account m → P' account m) :
    AskedOnce ms user password request P' := by
  obtain ⟨m, account, hm, hrequest, hsigned, hP⟩ := h
  exact ⟨m, account, hm, hrequest, hsigned, himp account m hP⟩

theorem ToldOnce.asked {report : Reported}
    (h : ToldOnce ms (SignedAs ms user password) c report)
    {request : Bytes → Vault.Request} (hrequest : ∀ account now, c.request account now = request account)
    {P : Bytes → Moment → Prop} (hP : ∀ account m, m.Tells (signedSession account) c report →
      P account m) : AskedOnce ms user password request P := by
  obtain ⟨m, s, hm, htells, account, rfl, hsigned⟩ := h
  exact ⟨m, account, hm, htells.request.trans (hrequest _ _), hsigned, hP account m htells⟩

def sampleService : Service :=
  run Service.moveStep (Service.start ∅ 0) (Service.sampleMoves.take 2)

theorem readable_sampleService : (vaultOf sampleService.disk).Readable :=
  inv_run (I := fun s : Service => (vaultOf s.disk).Readable)
    (fun _ _ => Service.readable_moveStep) Vault.readable_empty
    (along_take Service.fair_sampleMoves 2)

def sampleEnv : SessionEnv := { Service.openEnv with token := ascii "t" }

def answered : List Wire.Event := [.serve sampleEnv, .read]

def sampleCall : List Wire.Event :=
  answered ++ answered ++ .other (.command 0 sampleEnv (ascii "LOGIN ann pw") []) :: answered ++
    [.cut 0 0, .read]

theorem fair_serve {w : Wire R}
    (h : (listFiles w.service.disk (w.service.sessions conn).user).length ≤ 1000000) :
    Fair conn w (.serve sampleEnv) :=
  ⟨⟨rfl, rfl, rfl, rfl, rfl, rfl, rfl⟩, by decide, fun _ _ => h⟩

theorem fair_login (w : Wire R) :
    Fair 1 w (.other (.command 0 sampleEnv (ascii "LOGIN ann pw") [])) :=
  ⟨⟨rfl, rfl, rfl, rfl, rfl, rfl, rfl⟩, trivial, by simp⟩

theorem fair_sampleCall {w : Wire R} (h : Along (step 1) (fun w _ =>
    (listFiles w.service.disk (w.service.sessions 1).user).length ≤ 1000000) w sampleCall) :
    Along (step 1) (Fair 1) w sampleCall := by
  obtain ⟨hhello, -, hlogin, -, -, hcall, -⟩ := h
  exact ⟨fair_serve hhello, trivial, fair_serve hlogin, trivial, fair_login _, fair_serve hcall,
    trivial, trivial, trivial, trivial⟩

theorem sendable_sampleLogin : (Question.login (ascii "ann") (ascii "pw")).Sendable {} :=
  ⟨by decide, by decide⟩

/-- A command that makes one call exits 0 only when the call was told something. -/
theorem told_of_exitCode {told : Reported → Outcome} {x : Except String (Except String Reported)}
    (h : (outcomeOf told x).exitCode = 0) :
    ∃ report, x = .ok (.ok report) ∧ (told report).exitCode = 0 := by
  rcases x with e | e | report
  · exact absurd h (by simp [outcomeOf, Outcome.exitCode])
  · exact absurd h (by simp [outcomeOf, Outcome.exitCode])
  · exact ⟨report, rfl, h⟩

theorem told_of_notThere {told : Reported → Outcome} {x : Except String (Except String Reported)}
    (h : outcomeOf told x = .notThere) : ∃ report, x = .ok (.ok report) ∧ told report = .notThere := by
  rcases x with e | e | report
  · exact absurd h (by simp [outcomeOf])
  · exact absurd h (by simp [outcomeOf])
  · exact ⟨report, rfl, h⟩

/-- `delete` removes at most one file, of the account it signs in to and of the name that arrives
without its leading spaces. It exits 0 only when it has removed the file, and reports that there is
none only when there was none. -/
theorem cmdDelete_told {name : Bytes} (hline : (Question.login user password).Sendable {})
    (hv : (vaultOf s.disk).Readable) (hfresh : s.sessions conn = {})
    (hes : Along (step conn) (Fair conn) (start s (cmdDelete user password name)) es) :
    let w := start s (cmdDelete user password name)
    let asked := AskedOnce (moments conn w es) user password fun account =>
      .delete account (wireName name)
    (effective (moments conn w es) = [] ∨ asked fun _ _ => True) ∧
    ∀ r, (run (step conn) w es).client = .done r →
      (r.exitCode = 0 → asked fun account m => (m.vault.files account (wireName name)).isSome) ∧
      (r = .notThere → asked fun account m => m.vault.files account (wireName name) = none) := by
  intro w asked
  cases hname : isSafeName name with
  | false =>
    have hcmd : cmdDelete user password name = .done .notValid := if_pos hname
    have hensures : (cmdDelete user password name).Ensures protocol (some (s.sessions conn))
        fun l _ r => Log.told l = [] ∧ r = .notValid := by
      rw [hcmd]
      exact ⟨rfl, rfl⟩
    obtain ⟨served, hcarried, ⟨-, hnone, -⟩, hend⟩ := conversation_ensures hv hensures hes
    have heffective := effective_of_carried hcarried
    rw [hnone] at heffective
    refine ⟨.inl (List.forall₂_nil_right_iff.mp heffective), fun r hr => ?_⟩
    rw [(hend r hr).2]
    exact ⟨fun h => absurd h (by decide), fun h => absurd h (by decide)⟩
  | true =>
    have hcmd : cmdDelete user password name =
        (callAlone (connectFiles user password) (.delFile name)).map
          (outcomeOf fun found => if found = .confirmed then .deleted else .notThere) :=
      if_neg (by simp [hname])
    have hasked {report : Reported}
        (h : ToldOnce (moments conn w es) (SignedAs (moments conn w es) user password)
          (.delFile name) report) :
        asked fun account m => report = if (m.vault.files account (wireName name)).isSome then
          .confirmed else .missing := by
      refine h.asked (fun _ _ => rfl) fun account m htells => ?_
      obtain ⟨res, hres, rfl⟩ := htells.truth
      rw [htells.request, Call.request, Vault.answers_delete] at hres
      rw [hres, signedSession]
      cases m.vault.files account (wireName name) <;> rfl
    have hsend (account : Bytes) :
        (Question.call (.delFile name)).Sendable (signedSession account) :=
      ⟨hname, length_sp_name_le (by decide) hname, fun h => h.elim⟩
    have htold := callFiles_told (outcomeOf fun found => if found = .confirmed then .deleted
      else .notThere) (by simp) hline hsend hv hfresh (hcmd ▸ hes)
    rw [← hcmd] at htold
    obtain ⟨hnow, hend⟩ := htold
    refine ⟨hnow.imp_right fun h => ?_, fun r hr => ?_⟩
    · obtain ⟨report, hreport⟩ := h
      exact (hasked hreport).mono fun _ _ _ => trivial
    obtain ⟨x, rfl, hx⟩ := hend r hr
    refine ⟨fun hexit => ?_, fun hno => ?_⟩
    · obtain ⟨report, rfl, hexit⟩ := told_of_exitCode hexit
      refine (hasked (hx report rfl)).mono fun account m h => ?_
      by_contra hnone
      rw [if_neg hnone] at h
      subst h
      exact absurd hexit (by decide)
    · obtain ⟨report, rfl, hno⟩ := told_of_notThere hno
      refine (hasked (hx report rfl)).mono fun account m h => ?_
      by_contra hsome
      rw [if_pos (Option.isSome_iff_ne_none.mpr hsome)] at h
      subst h
      exact absurd hno (by decide)

theorem cmdDelete_told_sample :
    let w := start sampleService (cmdDelete (ascii "ann") (ascii "pw") (ascii "a b"))
    AskedOnce (moments 1 w sampleCall) (ascii "ann") (ascii "pw")
      (fun account => .delete account (wireName (ascii "a b")))
      fun account m => (m.vault.files account (wireName (ascii "a b"))).isSome := by
  intro w
  have hfair : Along (step 1) (Fair 1) w sampleCall := fair_sampleCall (by decide +kernel)
  have hdone : (run (step 1) w sampleCall).client = .done .deleted :=
    result_eq_some.mp (by decide +kernel)
  exact ((cmdDelete_told sendable_sampleLogin readable_sampleService rfl hfair).2 _ hdone).1 rfl

/-- `list` exits 0 only with the files of the account it signs in to, as they were at one moment;
their names arrive without leading spaces. -/
theorem cmdList_told (hline : (Question.login user password).Sendable {})
    (hv : (vaultOf s.disk).Readable) (hfresh : s.sessions conn = {})
    (hes : Along (step conn) (Fair conn) (start s (cmdList user password)) es) :
    let w := start s (cmdList user password)
    let asked := AskedOnce (moments conn w es) user password .list
    (effective (moments conn w es) = [] ∨ asked fun _ _ => True) ∧
    ∀ r, (run (step conn) w es).client = .done r → r.exitCode = 0 → asked fun account m =>
      ∃ l, Vault.Listing (m.vault.files account) l ∧ r = .listed (l.filterMap listedOf) := by
  intro w asked
  have hasked {report : Reported} (h : ToldOnce (moments conn w es)
      (SignedAs (moments conn w es) user password) .list report) : asked fun account m =>
        ∃ l, Vault.Listing (m.vault.files account) l ∧
          report = .listing (l.filterMap listedOf) := by
    refine h.asked (fun _ _ => rfl) fun account m htells => ?_
    obtain ⟨res, hres, rfl⟩ := htells.truth
    rw [htells.request] at hres
    obtain ⟨l, rfl, hl⟩ := hres
    exact ⟨l, hl, rfl⟩
  have hsend (account : Bytes) : (Question.call .list).Sendable (signedSession account) :=
    ⟨trivial, by decide, fun h => h.elim⟩
  obtain ⟨hnow, hend⟩ := callFiles_told (outcomeOf ofListing) (by simp) hline hsend hv hfresh hes
  refine ⟨hnow.imp_right fun h => ?_, fun r hr hexit => ?_⟩
  · obtain ⟨report, hreport⟩ := h
    exact (hasked hreport).mono fun _ _ _ => trivial
  · obtain ⟨x, rfl, hx⟩ := hend r hr
    obtain ⟨report, rfl, -⟩ := told_of_exitCode hexit
    refine (hasked (hx report rfl)).mono fun account m h => ?_
    obtain ⟨l, hl, rfl⟩ := h
    exact ⟨l, hl, rfl⟩

theorem cmdList_told_sample :
    let w := start sampleService (cmdList (ascii "ann") (ascii "pw"))
    AskedOnce (moments 1 w sampleCall) (ascii "ann") (ascii "pw") .list fun account m =>
      ∃ l, Vault.Listing (m.vault.files account) l ∧
        Outcome.listed [⟨ascii "a b", 2, 0⟩] = .listed (l.filterMap listedOf) := by
  intro w
  have hfair : Along (step 1) (Fair 1) w sampleCall := fair_sampleCall (by decide +kernel)
  have hdone : (run (step 1) w sampleCall).client = .done (.listed [⟨ascii "a b", 2, 0⟩]) :=
    result_eq_some.mp (by decide +kernel)
  exact (cmdList_told sendable_sampleLogin readable_sampleService rfl hfair).2 _ hdone rfl

/-- A shard is put into the store of a peer once at most, by a machine with the token of the peer,
and it counts as placed only when it was. -/
theorem placeChunk_told {token id content : Bytes} (hline : (Question.auth token).Sendable {})
    (hid : isSafeChunkId id = true) (hsize : content.length ≤ Config.kMaxTransferSize.toNat)
    (hv : (vaultOf s.disk).Readable) (hfresh : s.sessions conn = {})
    (hes : Along (step conn) (Fair conn) (start s (placeChunk token id content)) es) :
    let w := start s (placeChunk token id content)
    let ms := moments conn w es
    let placed := ∃ m, effective ms = [m] ∧ m.request = .putChunk id content ∧ TokenShown ms token
    (effective ms = [] ∨ placed) ∧
    ∀ r, (run (step conn) w es).client = .done r → r.exitCode = 0 → placed := by
  intro w ms placed
  have hlen : (Call.putChunk id content).line.length ≤ Config.kMaxLineLen := by
    have hlength : id.length = 64 := length_of_isSafeChunkId hid
    have hdigits : (Decimal.text content.length).length ≤ 20 := by
      rw [Config.kMaxTransferSize_toNat] at hsize
      exact Decimal.text_length_le (by omega) (by omega)
    have hcmd : kPutChunk.length = 8 := by decide
    simp only [Call.line, putChunkLine, sp, List.length_append, List.length_cons,
      Config.kMaxLineLen]
    omega
  have hsend (l : Log) (s : SessionState) (hs : Trusts token l s) :
      (Question.call (.putChunk id content)).Sendable s :=
    ⟨hid, hlen, fun _ => ⟨hid, hs.1 ▸ rfl, hsize⟩⟩
  have hplaced {report : Reported} (h : ToldOnce ms
      (fun s => s = trustedSession ∧ TokenShown ms token) (.putChunk id content) report) : placed := by
    obtain ⟨m, s, hm, htells, -, hshown⟩ := h
    exact ⟨m, hm, htells.request, hshown⟩
  obtain ⟨hnow, hend⟩ := callAlone_told (G := Trusts token)
    (fun ms s => s = trustedSession ∧ TokenShown ms token) (outcomeOf fun _ => .stored) (by simp)
    (fun l l' s h => h.append l') (ensures_connectChunks hline) hsend
    (fun ms l s h hs => tokenShown_of_trusts h hs) hv hfresh hes
  refine ⟨hnow.imp_right fun h => ?_, fun r hr hexit => ?_⟩
  · obtain ⟨report, hreport⟩ := h
    exact hplaced hreport
  · obtain ⟨x, rfl, hx⟩ := hend r hr
    obtain ⟨report, rfl, -⟩ := told_of_exitCode hexit
    exact hplaced (hx report rfl)

theorem placeChunk_told_sample :
    let id : Bytes := List.replicate 64 48
    let ms := moments 1 (start sampleService (placeChunk (ascii "t") id (ascii "shard"))) sampleCall
    ∃ m, effective ms = [m] ∧ m.request = .putChunk id (ascii "shard") ∧ TokenShown ms (ascii "t") := by
  intro id ms
  have hfair : Along (step 1) (Fair 1)
      (start sampleService (placeChunk (ascii "t") id (ascii "shard"))) sampleCall :=
    fair_sampleCall (by decide +kernel)
  have hdone : (run (step 1) (start sampleService (placeChunk (ascii "t") id (ascii "shard")))
      sampleCall).client = .done .stored := result_eq_some.mp (by decide +kernel)
  exact (placeChunk_told ⟨by decide, by decide⟩ (by decide +kernel) (by decide)
    readable_sampleService rfl hfair).2 _ hdone rfl

section Upload

variable {name stream tag : Bytes}

/-- What an upload can have been told: first about the file that is there, then of its own. -/
structure UploadLog (user password name stream tag : Bytes) (l : Log) (r : Outcome) : Prop where
  told : Log.told l = [] ∨ ∃ s, Signs user password l s ∧ ∃ first second,
    Log.told l = first ++ second ∧ (first = [] ∨ ∃ info, first = [(s, .stat name, info)]) ∧
    (second = [] ∨ ∃ report, second = [(s, .putFile name stream tag, report)])
  done : r.exitCode = 0 → ∃ s, Signs user password l s ∧
    ((∃ size, Log.told l = [(s, .stat name, .info size tag)] ∧ tag ≠ []) ∨
      ∃ first report, Log.told l = first ++ [(s, .putFile name stream tag, report)])

theorem uploadLog_failed {s : SessionState} {first : List (SessionState × Call × Reported)}
    (hs : Signs user password l s) (htold : Log.told l = first)
    (hfirst : first = [] ∨ ∃ info, first = [(s, .stat name, info)]) (e : String) :
    UploadLog user password name stream tag l (.failed e) where
  told := .inr ⟨s, hs, first, [], by rw [htold, List.append_nil], hfirst, .inl rfl⟩
  done h := absurd h (by simp [Outcome.exitCode])

theorem ensures_transfer {s : SessionState} {first : List (SessionState × Call × Reported)}
    (hs : Signs user password l s) (htold : Log.told l = first)
    (hfirst : first = [] ∨ ∃ info, first = [(s, .stat name, info)])
    (hsend : (Question.call (.putFile name stream tag)).Sendable s) :
    (transfer name stream tag).Ensures protocol (some s) fun l' _ =>
      UploadLog user password name stream tag (l ++ l') := by
  have hput (report : Reported) (l' : Log) (hl' : Log.told l' = []) :
      Log.told (l ++ (s, .call (.putFile name stream tag), .ok report) :: l') =
        first ++ [(s, .putFile name stream tag, report)] := by
    rw [Log.told_append, htold, Log.told_ok (by simp), hl']
  refine ⟨hsend, fun a _ => ?_, fun b hb => ?_, fun a b _ hb => ?_⟩
  · cases a with
    | error e =>
      refine uploadLog_failed (hs.append _) ?_ hfirst e
      rw [Log.told_append, Log.told_error, htold]
      exact List.append_nil first
    | ok report =>
      refine ensures_quitWith fun l' hl' => ?_
      have hstored := hput report l' hl'
      exact ⟨.inr ⟨s, hs.append _, first, _, hstored, hfirst, .inr ⟨report, rfl⟩⟩,
        fun _ => ⟨s, hs.append _, .inr ⟨first, report, hstored⟩⟩⟩
  · obtain ⟨e, rfl⟩ := error_of_lost hb (by simp)
    simp only [Ensures, List.append_nil]
    exact uploadLog_failed hs htold hfirst e
  · obtain ⟨e, rfl⟩ := error_of_lost hb (by simp)
    cases a with
    | error e' =>
      refine uploadLog_failed (hs.append _) ?_ hfirst e
      rw [Log.told_append, Log.told_error, htold]
      exact List.append_nil first
    | ok report =>
      exact ⟨.inr ⟨s, hs.append _, first, _, hput report [] rfl, hfirst, .inr ⟨report, rfl⟩⟩,
        fun h => absurd h (by simp [Outcome.exitCode])⟩

theorem ensures_transfer_lost {Post : Log → Option SessionState → Outcome → Prop}
    (h : ∀ e, Post [] none (.failed e)) : (transfer name stream tag).Ensures protocol none Post := by
  intro b hb
  obtain ⟨e, rfl⟩ := error_of_lost hb (by simp)
  exact h e

theorem sameContent_iff {a : Except String Reported} : sameContent tag a = true ↔
    tag ≠ [] ∧ ∃ size, a = .ok (.info size tag) := by
  constructor
  · intro h
    unfold sameContent at h
    split at h
    · next size existing =>
      simp only [Bool.and_eq_true, Bool.not_eq_true', List.isEmpty_eq_false_iff, decide_eq_true_eq] at h
      exact ⟨h.1, size, by rw [h.2]⟩
    · contradiction
  · rintro ⟨htag, size, rfl⟩
    simp [sameContent, htag]

theorem sameContent_error (e : String) : sameContent tag (.error e) = false := rfl

theorem ensures_uploadToServer (hline : (Question.login user password).Sendable {})
    (hname : isSafeName name = true)
    (hsend : ∀ account, signedName user password = some account →
      (Question.call (.putFile name stream tag)).Sendable (signedSession account)) :
    (uploadToServer user password name stream tag).Ensures protocol (some {}) fun l _ =>
      UploadLog user password name stream tag l := by
  refine ensures_bind.mpr ((ensures_connectFiles_signs hline).mono ?_)
  rintro l s' r ⟨hnone, hconnected⟩
  cases r with
  | error e =>
    simp only [Ensures, List.append_nil]
    exact ⟨.inl hnone, fun h => absurd h (by simp [Outcome.exitCode])⟩
  | ok u =>
    obtain ⟨s, rfl, hs⟩ := hconnected rfl
    have hput : (Question.call (.putFile name stream tag)).Sendable s := by
      obtain ⟨account, haccount, rfl, -⟩ := hs
      exact hsend account haccount
    have hinfo (info : Reported) :
        Log.told (l ++ [(s, .call (.stat name), .ok info)]) = [(s, .stat name, info)] := by
      rw [Log.told_append, hnone, Log.told_ok (by simp)]
      rfl
    have herror (e : String) : Log.told (l ++ [(s, .call (.stat name), .error e)]) = [] := by
      rw [Log.told_append, hnone, Log.told_error]
      rfl
    refine ⟨⟨hname, length_sp_name_le (by decide) hname, fun h => h.elim⟩, fun a _ => ?_,
      fun b hb => ?_, fun a b _ hb => ?_⟩
    · have hs' : Signs user password (l ++ [(s, .call (.stat name), a)]) s := hs.append _
      have htransfer {first : List (SessionState × Call × Reported)}
          (htold : Log.told (l ++ [(s, .call (.stat name), a)]) = first)
          (hfirst : first = [] ∨ ∃ info, first = [(s, .stat name, info)]) :
          (transfer name stream tag).Ensures protocol (some s) fun l' _ =>
            UploadLog user password name stream tag (l ++ (s, .call (.stat name), a) :: l') := by
        simpa using ensures_transfer hs' htold hfirst hput
      cases hsame : sameContent tag a with
      | true =>
        obtain ⟨htag, size, rfl⟩ := sameContent_iff.mp hsame
        simp only [hsame, ↓reduceIte]
        refine ensures_quitWith fun l' hl' => ?_
        have htold : Log.told (l ++ (s, .call (.stat name), .ok (.info size tag)) :: l') =
            [(s, .stat name, .info size tag)] := by
          rw [Log.told_append, hnone, Log.told_ok (by simp), hl', List.nil_append]
        exact ⟨.inr ⟨s, hs.append _, _, [], by rw [htold, List.append_nil], .inr ⟨_, rfl⟩, .inl rfl⟩,
          fun _ => ⟨s, hs.append _, .inl ⟨size, htold, htag⟩⟩⟩
      | false =>
        simp only [hsame, Bool.false_eq_true, ↓reduceIte]
        cases a with
        | error e => exact htransfer (herror e) (.inl rfl)
        | ok info => exact htransfer (hinfo info) (.inr ⟨info, rfl⟩)
    · obtain ⟨e, rfl⟩ := error_of_lost hb (by simp)
      simp only [sameContent_error, Bool.false_eq_true, ↓reduceIte]
      refine ensures_transfer_lost fun e => ?_
      rw [List.append_nil]
      exact uploadLog_failed hs hnone (.inl rfl) e
    · obtain ⟨e, rfl⟩ := error_of_lost hb (by simp)
      simp only [sameContent_error, Bool.false_eq_true, ↓reduceIte]
      refine ensures_transfer_lost fun e => ?_
      cases a with
      | error e' => exact uploadLog_failed (hs.append _) (herror e') (.inl rfl) e
      | ok info => exact uploadLog_failed (hs.append _) (hinfo info) (.inr ⟨info, rfl⟩) e

def PutsStream (name stream tag account : Bytes) (m : Moment) : Prop :=
  m.request = .put account (wireName name) ⟨stream, wireTag tag, m.env.now⟩

theorem tag_of_info {m : Moment} {account : Bytes} {size : UInt64}
    (h : m.Tells (signedSession account) (.stat name) (.info size tag)) (htag : tag ≠ []) :
    ∃ k, m.vault.files account (wireName name) = some k ∧ k.tag = tag := by
  obtain ⟨res, hres, hreport⟩ := h.truth
  rw [h.request, Call.request, Vault.answers_stat, signedSession] at hres
  cases hkept : m.vault.files account (wireName name) with
  | none =>
    rw [hres, hkept] at hreport
    contradiction
  | some k =>
    rw [hres, hkept] at hreport
    obtain ⟨-, hshown⟩ := Reported.info.inj hreport
    split_ifs at hshown
    · exact absurd hshown htag
    · exact ⟨k, rfl, hshown.symm⟩

/-- An upload asks about the stored file once at most and then stores its stream once at most, both
in the account it signs in to. It exits 0 only when the file that was there had the tag of the
stream, or the stream was stored. -/
theorem uploadToServer_told (hline : (Question.login user password).Sendable {})
    (hname : isSafeName name = true)
    (hsend : ∀ account, signedName user password = some account →
      (Question.call (.putFile name stream tag)).Sendable (signedSession account))
    (hv : (vaultOf s.disk).Readable) (hfresh : s.sessions conn = {})
    (hes : Along (step conn) (Fair conn)
      (start s (uploadToServer user password name stream tag)) es) :
    let w := start s (uploadToServer user password name stream tag)
    let ms := moments conn w es
    (effective ms = [] ∨ ∃ account first second, SignedIn ms user password account ∧
      effective ms = first ++ second ∧ first.length ≤ 1 ∧ second.length ≤ 1 ∧
      (∀ m ∈ first, m.request = .stat account (wireName name)) ∧
      ∀ m ∈ second, PutsStream name stream tag account m) ∧
    ∀ r, (run (step conn) w es).client = .done r → r.exitCode = 0 →
      ∃ account, SignedIn ms user password account ∧
        ((∃ m, effective ms = [m] ∧ m.request = .stat account (wireName name) ∧
          ∃ k, m.vault.files account (wireName name) = some k ∧ k.tag = tag) ∨
        ∃ first m, effective ms = first ++ [m] ∧ PutsStream name stream tag account m) := by
  intro w ms
  have hensures := ensures_uploadToServer hline hname hsend
  rw [← hfresh] at hensures
  obtain ⟨served, hcarried, ⟨r, hnow⟩, hend⟩ := conversation_ensures hv hensures hes
  have heffective := effective_of_carried hcarried
  refine ⟨?_, fun r hr hexit => ?_⟩
  · rcases hnow.told with hnone | ⟨s', hs, first, second, htold, hfirst, hsecond⟩
    · rw [hnone] at heffective
      exact .inl (List.forall₂_nil_right_iff.mp heffective)
    · obtain ⟨account, rfl, hsigned⟩ := signedIn_of_signs hcarried hs
      rw [htold] at heffective
      obtain ⟨asks, puts, hms, hasks, hputs⟩ := exists_append_of_forall₂ heffective
      refine .inr ⟨account, asks, puts, hsigned, hms, ?_, ?_, fun m hm => ?_, fun m hm => ?_⟩
      · rw [hasks.length_eq]
        rcases hfirst with rfl | ⟨info, rfl⟩ <;> simp
      · rw [hputs.length_eq]
        rcases hsecond with rfl | ⟨report, rfl⟩ <;> simp
      · obtain ⟨x, hx, htells⟩ := exists_of_forall₂_mem hasks.flip hm
        rcases hfirst with rfl | ⟨info, rfl⟩
        · contradiction
        · rw [List.mem_singleton.mp hx] at htells
          exact htells.request
      · obtain ⟨x, hx, htells⟩ := exists_of_forall₂_mem hputs.flip hm
        rcases hsecond with rfl | ⟨report, rfl⟩
        · contradiction
        · rw [List.mem_singleton.mp hx] at htells
          exact htells.request
  · obtain ⟨s', hs, hdone⟩ := (hend r hr).done hexit
    obtain ⟨account, rfl, hsigned⟩ := signedIn_of_signs hcarried hs
    refine ⟨account, hsigned, ?_⟩
    rcases hdone with ⟨size, htold, htag⟩ | ⟨first, report, htold⟩
    · rw [htold] at heffective
      obtain ⟨m, htells, hms⟩ := exists_singleton_of_forall₂ heffective
      exact .inl ⟨m, hms, htells.request, tag_of_info htells htag⟩
    · rw [htold] at heffective
      obtain ⟨asks, puts, hms, -, hputs⟩ := exists_append_of_forall₂ heffective
      obtain ⟨m, htells, rfl⟩ := exists_singleton_of_forall₂ hputs
      exact .inr ⟨asks, m, hms, htells.request⟩

theorem sendable_sampleUpload (account : Bytes)
    (h : signedName (ascii "ann") (ascii "pw") = some account) :
    (Question.call (.putFile (ascii "b") (ascii "sealed") (ascii "t1"))).Sendable
      (signedSession account) := by
  have hname : signedName (ascii "ann") (ascii "pw") = some (ascii "ann") := by decide
  rw [hname, Option.some.injEq] at h
  subst h
  have htag : Session.IsTag (ascii "t1") := (by decide : ∀ x ∈ ascii "t1", x ≠ 32 ∧ x ≠ 10 ∧ x ≠ 13)
  exact ⟨⟨by decide +kernel, htag⟩, by decide, fun _ => ⟨⟨rfl, by decide, by decide +kernel⟩, htag⟩⟩

theorem uploadToServer_told_sample :
    let w := start sampleService (uploadToServer (ascii "ann") (ascii "pw") (ascii "b")
      (ascii "sealed") (ascii "t1"))
    let ms := moments 1 w (answered ++ sampleCall)
    ∃ account, SignedIn ms (ascii "ann") (ascii "pw") account ∧
      ((∃ m, effective ms = [m] ∧ m.request = .stat account (wireName (ascii "b")) ∧
        ∃ k, m.vault.files account (wireName (ascii "b")) = some k ∧ k.tag = ascii "t1") ∨
      ∃ first m, effective ms = first ++ [m] ∧
        PutsStream (ascii "b") (ascii "sealed") (ascii "t1") account m) := by
  intro w ms
  have hfair : Along (step 1) (Fair 1) w (answered ++ sampleCall) :=
    ⟨fair_serve (by decide +kernel), trivial, fair_serve (by decide +kernel), trivial,
      fair_serve (by decide +kernel), trivial, fair_login _, fair_serve (by decide +kernel), trivial,
      trivial, trivial, trivial⟩
  have hdone : (run (step 1) w (answered ++ sampleCall)).client = .done .stored :=
    result_eq_some.mp (by decide +kernel)
  exact (uploadToServer_told sendable_sampleLogin (by decide +kernel) sendable_sampleUpload
    readable_sampleService rfl hfair).2 _ hdone rfl

end Upload

end Remote

end PersonalCloud
