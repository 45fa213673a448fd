import PersonalCloud.System.Outcomes

/-! A command does not wait for ever: once the server has come to its questions and the client to the
answers often enough it has ended, whatever else happens on the way. -/
namespace PersonalCloud

open Remote Machine Dialogue

namespace Wire

variable {R : Type} {conn n : ℕ} {w : Wire R}
  {Post : List (SessionState × Question × Except String Reported) → R → Prop}

inductive Turns : ℕ → List Event → Prop
  | none (es : List Event) : Turns 0 es
  | turn {n : ℕ} (before : List Event) (env : SessionEnv) (between rest : List Event)
      (h : Turns n rest) : Turns (n + 1) (before ++ .serve env :: (between ++ .read :: rest))

theorem client_write (w : Wire R) : w.write.client = w.client := by
  unfold write
  split
  · rfl
  · split_ifs <;> rfl

theorem client_serve (w : Wire R) (env : SessionEnv) :
    (w.step conn (.serve env)).client = w.client := by
  rw [step]
  split <;> rfl

/-- There is something to be read, or the connection has ended. -/
def Ready (w : Wire R) : Prop := ¬ (w.up = true ∧ w.reply = [])

theorem client_read {q : Question} {next : Except String Reported → Client R}
    (hask : w.client = .ask q next) (h : w.Ready) :
    (w.step conn .read).client = next (q.hear w.reply).1 := by
  rw [step, hask]
  simp only
  rw [if_neg h, client_write]

/-- Nothing takes a client back. -/
theorem atMost_step (w : Wire R) (e : Event) (h : w.client.AtMost n) :
    (w.step conn e).client.AtMost n := by
  cases e with
  | other e => exact h
  | serve env => rwa [client_serve]
  | cut requested replied => exact h
  | read =>
    cases hask : w.client with
    | done r => simp [step, hask]
    | ask q next =>
      by_cases hready : w.Ready
      · rw [hask] at h
        rw [client_read hask hready]
        exact h.next _
      · have hsame : w.step conn .read = w := by
          rw [step, hask]
          exact if_pos (not_not.mp hready)
        rwa [hsame]

theorem atMost_read (hready : w.Ready) (h : w.client.AtMost (n + 1)) :
    (w.step conn .read).client.AtMost n := by
  cases hask : w.client with
  | done r => simp [step, hask]
  | ask q next =>
    rw [hask] at h
    rw [client_read hask hready]
    exact h _

/-- The connection is in the state some run of the dialogue is in. -/
def Kept (conn : ℕ) (Post : List (SessionState × Question × Except String Reported) → R → Prop)
    (w : Wire R) : Prop :=
  (vaultOf w.service.disk).Readable ∧
    ∃ t : Talk R, Follows conn w t ∧ t.Holds protocol Post

theorem kept_step (w : Wire R) (e : Event) (h : Kept conn Post w) (hfair : Fair conn w e) :
    Kept conn Post (w.step conn e) := by
  obtain ⟨hw, t, hfollows, hholds⟩ := h
  obtain ⟨fs, hallowed, hfollows', -⟩ := matched_step hw hfollows hholds hfair
  exact ⟨readable_step hw hfollows hholds hfair, _, hfollows', Talk.holds_run hholds hallowed⟩

theorem ready_serve (h : Kept conn Post w) {env : SessionEnv} (hfair : Fair conn w (.serve env))
    {q : Question} {next : Except String Reported → Client R} (hask : w.client = .ask q next) :
    (w.step conn (.serve env)).Ready := by
  obtain ⟨hw, ⟨client, line, session, served⟩, ⟨hclient, hsession, hline⟩, hholds⟩ := h
  simp only at hclient hsession
  subst hclient hsession
  have hdown (hup : w.up = false) : (w.step conn (.serve env)).Ready := by
    have hstays : (w.step conn (.serve env)).up = false := by
      rw [step]
      split
      · exact hup
      · simp [hup]
    simp [Ready, hstays]
  cases line with
  | waiting =>
    obtain ⟨hreply, hpending⟩ := hline
    rw [hask] at hpending hholds
    obtain ⟨hup, hrequest⟩ := hpending
    obtain ⟨m, a, -, -, ha, -, -, -, hreply', -⟩ :=
      matched_serve hw hfair hrequest hholds.1 hreply
    rw [if_pos hup] at hreply'
    exact fun hc => ha.nonempty (hreply' ▸ hc.2)
  | answered a up =>
    obtain ⟨hup, hrequest, hnonempty, -⟩ := hline
    rw [serve_nil hrequest]
    exact fun hc => hnonempty hc.2
  | inFlight q' => exact hdown hline.1
  | lost => exact hdown hline.1

/-- The client can read what it waits for, or has read it. -/
def Nearer (n : ℕ) (w : Wire R) : Prop :=
  w.Ready ∧ w.client.AtMost (n + 1) ∨ w.client.AtMost n

theorem nearer_serve (h : Kept conn Post w) {env : SessionEnv} (hfair : Fair conn w (.serve env))
    (hn : w.client.AtMost (n + 1)) : (w.step conn (.serve env)).Nearer n := by
  cases hask : w.client with
  | done r => exact .inr (by simp [client_serve, hask])
  | ask q next => exact .inl ⟨ready_serve h hfair hask, by rwa [client_serve]⟩

theorem nearer_step (w : Wire R) (e : Event) (h : Kept conn Post w ∧ w.Nearer n)
    (hfair : Fair conn w e) : Kept conn Post (w.step conn e) ∧ (w.step conn e).Nearer n := by
  refine ⟨kept_step w e h.1 hfair, ?_⟩
  rcases h.2 with ⟨hready, hn⟩ | hn
  · cases e with
    | other e => exact .inl ⟨hready, hn⟩
    | serve env => exact nearer_serve h.1 hfair hn
    | read => exact .inr (atMost_read hready hn)
    | cut requested replied => exact .inl ⟨by simp [Ready, step], hn⟩
  · exact .inr (atMost_step w e hn)

theorem atMost_turns {es : List Event} {m : ℕ} (hturns : Turns m es) (h : Kept conn Post w)
    (hes : Along (step conn) (Fair conn) w es) (hm : w.client.AtMost (m + n)) :
    (run (step conn) w es).client.AtMost n := by
  induction hturns generalizing w with
  | none es =>
    rw [Nat.zero_add] at hm
    exact inv_run_all (I := fun w : Wire R => w.client.AtMost n) atMost_step hm es
  | @turn m before env between rest _ ih =>
    rw [Nat.add_right_comm] at hm
    obtain ⟨hbefore, hserve, hmore⟩ := along_append.mp hes
    obtain ⟨hbetween, hread, hrest⟩ := along_append.mp hmore
    rw [run_append, run_cons, run_append, run_cons]
    have hkept := inv_run kept_step h hbefore
    have hleft : (run (step conn) w before).client.AtMost (m + n + 1) :=
      inv_run_all (I := fun w : Wire R => w.client.AtMost (m + n + 1)) atMost_step hm before
    obtain ⟨hkept', hnearer⟩ := inv_run nearer_step
      ⟨kept_step _ _ hkept hserve, nearer_serve hkept hserve hleft⟩ hbetween
    refine ih (kept_step _ _ hkept' hread) hrest ?_
    rcases hnearer with ⟨hready, hn⟩ | hn
    · exact atMost_read hready hn
    · exact atMost_step _ _ hn

theorem ends_of_turns {s : Service} {d : Client R} {es : List Event}
    (hv : (vaultOf s.disk).Readable)
    (hd : d.Ensures protocol (some (s.sessions conn)) fun l _ => Post l)
    (hes : Along (step conn) (Fair conn) (start s d) es) (hturns : Turns n es) (hn : d.AtMost n) :
    ∃ r, (run (step conn) (start s d) es).client = .done r := by
  have hkept : Kept conn Post (start s d) :=
    ⟨by cases d <;> exact hv, _, follows_start s d, Talk.holds_start hd⟩
  exact exists_of_atMost_zero (atMost_turns hturns hkept hes (by rwa [start, client_write]))

end Wire

namespace Remote

open Wire Channel Proto

variable {R : Type} {conn : ℕ} {s : Service} {es : List Wire.Event} {user password : Bytes} {c : Call}

theorem atMost_connectWith (credential : Bytes) (missing : String) (q : Question) :
    (connectWith credential missing q).AtMost 2 := by
  intro a
  cases a with
  | error e => trivial
  | ok report =>
    simp only
    split_ifs
    · trivial
    · exact fun a => trivial

theorem atMost_quitWith (result : R) : (quitWith result).AtMost 1 := fun _ => trivial

theorem atMost_callAlone {connect : Client (Except String Unit)} (h : connect.AtMost 2) (c : Call) :
    (callAlone connect c).AtMost 4 := by
  refine h.bind (m := 2) fun connected => ?_
  cases connected with
  | error e => trivial
  | ok u =>
    intro a
    cases a with
    | error e => trivial
    | ok report => exact atMost_quitWith _

theorem atMost_uploadToServer (user password name stream tag : Bytes) :
    (uploadToServer user password name stream tag).AtMost 5 := by
  refine AtMost.bind (m := 3) (atMost_connectWith _ _ _) fun connected => ?_
  cases connected with
  | error e => trivial
  | ok u =>
    intro info
    simp only
    split_ifs
    · exact (atMost_quitWith _).succ
    · intro a
      cases a with
      | error e => trivial
      | ok report => exact atMost_quitWith _

/-- A command that makes one call has ended after four turns at most. -/
theorem callFiles_ends (f : Except String (Except String Reported) → R) (hquit : c ≠ .quit)
    (hline : (Question.login user password).Sendable {})
    (hsend : ∀ name, (Question.call c).Sendable (signedSession name))
    (hv : (vaultOf s.disk).Readable) (hfresh : s.sessions conn = {})
    (hes : Along (step conn) (Fair conn)
      (start s ((callAlone (connectFiles user password) c).map f)) es) (hturns : Turns 4 es) :
    ∃ r, (run (step conn) (start s ((callAlone (connectFiles user password) c).map f)) es).client =
      .done r := by
  have hensures : ((callAlone (connectFiles user password) c).map f).Ensures protocol
      (some (s.sessions conn)) fun _ _ _ => True := by
    rw [hfresh]
    refine ensures_map.mpr ((ensures_callAlone (G := Signs user password) hquit
      (fun l l' s h => h.append l') (ensures_connectFiles_signs hline) ?_).mono
      fun _ _ _ _ => trivial)
    rintro l s ⟨name, -, rfl, -⟩
    exact hsend name
  refine ends_of_turns hv hensures hes hturns ?_
  exact (atMost_callAlone (atMost_connectWith _ _ _) c).bind (m := 0) fun r => trivial

/-- The connection is lost in front of the listing. -/
theorem callFiles_ends_sample :
    let w := start sampleService (cmdList (ascii "ann") (ascii "pw"))
    ∃ r, (run (step 1) w (answered ++ answered ++ .cut 0 0 :: (answered ++ answered))).client =
      .done r := by
  intro w
  have hfair : Along (step 1) (Fair 1) w
      (answered ++ answered ++ .cut 0 0 :: (answered ++ answered)) :=
    ⟨fair_serve (by decide +kernel), trivial, fair_serve (by decide +kernel), trivial, trivial,
      fair_serve (by decide +kernel), trivial, fair_serve (by decide +kernel), trivial, trivial⟩
  have hturns : Turns 4 (answered ++ answered ++ .cut 0 0 :: (answered ++ answered)) :=
    .turn [] sampleEnv [] _ (.turn [] sampleEnv [] _ (.turn [.cut 0 0] sampleEnv [] _
      (.turn [] sampleEnv [] _ (.none []))))
  have hsend (name : Bytes) : (Question.call .list).Sendable (signedSession name) :=
    ⟨trivial, by decide, fun h => h.elim⟩
  exact callFiles_ends _ (by simp) sendable_sampleLogin hsend readable_sampleService rfl hfair hturns

/-- An upload has ended after five turns at most: it never waits for an answer that does not come,
whatever else reaches the server and wherever the connection is lost. -/
theorem uploadToServer_ends {name stream tag : Bytes}
    (hline : (Question.login user password).Sendable {}) (hname : isSafeName name = true)
    (hsend : ∀ account, signedName user password = some account →
      (Question.call (.putFile name stream tag)).Sendable (signedSession account))
    (hv : (vaultOf s.disk).Readable) (hfresh : s.sessions conn = {})
    (hes : Along (step conn) (Fair conn)
      (start s (uploadToServer user password name stream tag)) es) (hturns : Turns 5 es) :
    ∃ r, (run (step conn) (start s (uploadToServer user password name stream tag)) es).client =
      .done r := by
  have hensures := ensures_uploadToServer hline hname hsend
  rw [← hfresh] at hensures
  exact ends_of_turns hv hensures hes hturns (atMost_uploadToServer _ _ _ _ _)

/-- The connection is lost in front of the sign-in. -/
theorem uploadToServer_ends_sample :
    let w := start sampleService (uploadToServer (ascii "ann") (ascii "pw") (ascii "b")
      (ascii "sealed") (ascii "t1"))
    ∃ r, (run (step 1) w (answered ++ .cut 0 0 ::
      (answered ++ answered ++ answered ++ answered))).client = .done r := by
  intro w
  have hfair : Along (step 1) (Fair 1) w
      (answered ++ .cut 0 0 :: (answered ++ answered ++ answered ++ answered)) :=
    ⟨fair_serve (by decide +kernel), trivial, trivial, fair_serve (by decide +kernel), trivial,
      fair_serve (by decide +kernel), trivial, fair_serve (by decide +kernel), trivial,
      fair_serve (by decide +kernel), trivial, trivial⟩
  have hturns : Turns 5 (answered ++ .cut 0 0 :: (answered ++ answered ++ answered ++ answered)) :=
    .turn [] sampleEnv [] _ (.turn [.cut 0 0] sampleEnv [] _ (.turn [] sampleEnv [] _
      (.turn [] sampleEnv [] _ (.turn [] sampleEnv [] _ (.none [])))))
  exact uploadToServer_ends sendable_sampleLogin (by decide +kernel) sendable_sampleUpload
    readable_sampleService rfl hfair hturns

end Remote

end PersonalCloud
