import Mathlib.Data.List.ReduceOption
import PersonalCloud.System.Answers

/-! A client on its connection to the server, byte for byte, while anything else reaches the server
and the connection can end at any time: the server is asked in order and each question once, up to
the one that is in doubt. -/
namespace PersonalCloud

open Proto Channel Store Remote

variable {R : Type}

/-- A client, the server, and the bytes between them that have not been read. -/
structure Wire (R : Type) where
  service : Service
  client : Client R
  request : Bytes
  reply : Bytes
  /-- Both ends still write. -/
  up : Bool

namespace Wire

inductive Event where
  /-- Whatever else reaches the server. -/
  | other (e : Service.Event)
  /-- The server handles a line of this connection. -/
  | serve (env : SessionEnv)
  /-- The client reads, once there is a reply or there will be none. -/
  | read
  /-- The connection ends, and these numbers of bytes are all that still arrives. -/
  | cut (requested replied : ℕ)

def write (w : Wire R) : Wire R :=
  match w.client with
  | .done _ => { w with up := false }
  | .ask q _ => if w.up then { w with request := w.request ++ q.bytes } else w

def start (s : Service) (d : Client R) : Wire R := write ⟨s, d, [], [], true⟩

variable (conn : ℕ)

def moment (w : Wire R) (env : SessionEnv) : Option Moment :=
  (readLine w.request).map fun x =>
    ⟨{ env with disk := w.service.disk }, w.service.sessions conn, x.1, x.2⟩

def step (w : Wire R) : Event → Wire R
  | .other e => { w with service := w.service.step e }
  | .serve env =>
      match w.moment conn env with
      | none => w
      | some m =>
          { w with
            service := w.service.step (.command conn env m.line m.input)
            request := if m.handled.go then m.handled.rest else []
            -- what is written to a connection that has ended is lost
            reply := if w.up then w.reply ++ m.handled.reply else w.reply
            up := w.up && m.handled.go }
  | .read =>
      match w.client with
      | .done _ => w
      | .ask q next =>
          if w.up = true ∧ w.reply = [] then w
          else write { w with client := next (q.hear w.reply).1, reply := (q.hear w.reply).2 }
  | .cut requested replied =>
      { w with request := w.request.take requested, reply := w.reply.take replied, up := false }

def momentOf (w : Wire R) : Event → Option Moment
  | .serve env => w.moment conn env
  | _ => none

/-- The lines the server handles on this connection in a run. -/
def moments (w : Wire R) (es : List Event) : List Moment :=
  (Machine.trace (step conn) (momentOf conn) w es).reduceOption

/-- Storage is sound, what is put into the store can be read back, and the connection is only used
by its client. -/
def Fair (w : Wire R) : Event → Prop
  | .other e => e.env.Sound ∧ (w.service.asks e).LeavesReadable ∧
      ∀ env line input, e ≠ .command conn env line input
  | .serve env => env.Sound ∧ (-2 ^ 63 ≤ env.now ∧ env.now < 2 ^ 63) ∧
      ∀ input, readLine w.request = some (kList, input) →
        (listFiles w.service.disk (w.service.sessions conn).user).length ≤ 1000000
  | _ => True

/-- Nothing of a question that can still be carried out. -/
def Spent (s : SessionState) (request : Bytes) : Prop :=
  request = [] ∨ ∃ q : Question, ∃ n, q.Sendable s ∧ n < q.bytes.length ∧ request = q.bytes.take n

abbrev Talk (R : Type) := Dialogue.Talk Question (Except String Reported) R SessionState

/-- The bytes on the connection are what the dialogue says they are. -/
structure Follows (w : Wire R) (t : Talk R) : Prop where
  client : t.client = w.client
  session : t.session = w.service.sessions conn
  line : match t.line with
    | .waiting => w.reply = [] ∧
        match w.client with
        | .ask q _ => w.up = true ∧ w.request = q.bytes
        | .done _ => w.up = false ∧ w.request = []
    | .answered a up => w.up = up ∧ w.request = [] ∧ w.reply ≠ [] ∧
        ∃ q next, w.client = .ask q next ∧ q.IsReply w.reply a
    | .inFlight q => w.up = false ∧ w.request = q.bytes ∧ w.reply = []
    | .lost => w.up = false ∧ Spent (w.service.sessions conn) w.request ∧
        ∀ q next, w.client = .ask q next → ∀ n,
          q.Lost (q.hear (w.reply.take n)).1 ∧ (q.hear (w.reply.take n)).2 = []

/-- The lines that were answered are the questions served; the others ask for nothing. -/
structure Carried (ms : List Moment) (l : List (SessionState × Question × Except String Reported)) :
    Prop where
  answered : List.Forall₂ (fun m x => m.session = x.1 ∧ x.2.1.AnsweredAt m x.2.2)
    (ms.filter fun m => m.handled.reply ≠ []) l
  unanswered : ∀ m ∈ ms, m.handled.reply = [] → m.request = .other

variable {conn} {w : Wire R} {t : Talk R}

theorem Carried.append {ms ms' : List Moment}
    {l l' : List (SessionState × Question × Except String Reported)} (h : Carried ms l)
    (h' : Carried ms' l') : Carried (ms ++ ms') (l ++ l') where
  answered := by
    rw [List.filter_append]
    exact List.rel_append h.answered h'.answered
  unanswered m hm := (List.mem_append.mp hm).elim (h.unanswered m) (h'.unanswered m)

theorem carried_nil : Carried [] [] := ⟨.nil, by simp⟩

theorem carried_answered {m : Moment} {q : Question} {a : Except String Reported}
    (h : q.AnsweredAt m a) : Carried [m] [(m.session, q, a)] where
  answered := by
    rw [List.filter_cons_of_pos (by simpa using h.nonempty)]
    exact .cons ⟨rfl, h⟩ .nil
  unanswered m' hm' hempty := by
    obtain rfl : m' = m := List.mem_singleton.mp hm'
    exact absurd hempty h.nonempty

theorem carried_unanswered {m : Moment} (hreply : m.handled.reply = [])
    (hrequest : m.request = .other) : Carried [m] [] where
  answered := by
    rw [List.filter_cons_of_neg (by simpa using hreply)]
    exact .nil
  unanswered m' hm' _ := by rwa [List.mem_singleton.mp hm']

open Machine Dialogue

/-- The dialogue can do the same, and is asked for what the server handles. -/
def Matched (conn : ℕ) (w : Wire R) (t : Talk R) (ms : List Moment) : Prop :=
  ∃ es, Along (Talk.step protocol) (Talk.Allowed protocol) t es ∧
    Follows conn w (run (Talk.step protocol) t es) ∧
    ∃ l, (run (Talk.step protocol) t es).served = t.served ++ l ∧ Carried ms l

theorem matched_idle (h : Follows conn w t) : Matched conn w t [] :=
  ⟨[], trivial, h, [], by simp, carried_nil⟩

theorem sessions_step_of_other (s : Service) {e : Service.Event}
    (h : ∀ env line input, e ≠ .command conn env line input) :
    (s.step e).sessions conn = s.sessions conn := by
  cases e with
  | command conn' env line input =>
    have hne : conn ≠ conn' := by
      rintro rfl
      exact h env line input rfl
    simp [Service.step, Function.update_of_ne hne]
  | request env elapsed more drawn line input =>
    simp only [Service.step]
    cases Http.readRequest line input with
    | error reason => rfl
    | ok got => rfl

theorem follows_other (h : Follows conn w t) {e : Service.Event}
    (he : Fair conn w (.other e)) : Matched conn (w.step conn (.other e)) t [] := by
  have hsame := sessions_step_of_other w.service he.2.2
  refine matched_idle ⟨h.client, ?_, ?_⟩
  · rw [h.session]
    exact hsame.symm
  · have hline := h.line
    simp only [step, hsame]
    exact hline

theorem moment_nil (h : w.request = []) (env : SessionEnv) : w.moment conn env = none := by
  rw [moment, h]
  rfl

theorem serve_nil (h : w.request = []) (env : SessionEnv) : w.step conn (.serve env) = w := by
  rw [step, moment_nil h]

def envOf (w : Wire R) (env : SessionEnv) : SessionEnv := { env with disk := w.service.disk }

theorem sound_envOf {env : SessionEnv} (h : env.Sound) : (w.envOf env).Sound :=
  ⟨h.1, h.2, h.3, h.4, h.5, h.6, h.7⟩

theorem fair_moment {env : SessionEnv} {m : Moment} (hw : (vaultOf w.service.disk).Readable)
    (hfair : Fair conn w (.serve env)) (hm : w.moment conn env = some m) : m.Fair := by
  obtain ⟨⟨line, input⟩, hread, rfl⟩ := Option.map_eq_some_iff.mp hm
  obtain ⟨hsound, hnow, hlisting⟩ := hfair
  exact ⟨sound_envOf hsound, hnow.1, hnow.2, hw, fun hline => hlisting input (hline ▸ hread)⟩

theorem moment_question {env : SessionEnv} {q : Question} (hrequest : w.request = q.bytes)
    (hsend : q.Sendable (w.service.sessions conn)) : w.moment conn env =
      some (q.moment (w.envOf env) (w.service.sessions conn)) := by
  rw [moment, hrequest, Question.readLine_bytes hsend]
  rfl

theorem sessions_step_self (s : Service) (env : SessionEnv) (line input : Bytes) :
    (s.step (.command conn env line input)).sessions conn =
      (Session.handle { env with disk := s.disk } (s.sessions conn) line input).session := by
  simp [Service.step]

/-- A question that was written is answered; whether the client will hear of it depends on the
connection. -/
theorem matched_serve {env : SessionEnv} (hw : (vaultOf w.service.disk).Readable)
    (hfair : Fair conn w (.serve env)) {q : Question} (hrequest : w.request = q.bytes)
    (hsend : q.Sendable (w.service.sessions conn)) (hreply : w.reply = []) :
    ∃ m a, w.moment conn env = some m ∧ m.session = w.service.sessions conn ∧
      q.AnsweredAt m a ∧
      (w.step conn (.serve env)).client = w.client ∧
      (w.step conn (.serve env)).service.sessions conn = q.leads (w.service.sessions conn) a ∧
      (w.step conn (.serve env)).request = [] ∧
      (w.step conn (.serve env)).reply = (if w.up then m.handled.reply else []) ∧
      (w.step conn (.serve env)).up = (w.up && m.handled.go) := by
  have hm : w.moment conn env = some (q.moment (w.envOf env) (w.service.sessions conn)) :=
    moment_question hrequest hsend
  obtain ⟨a, ha⟩ := Question.exists_answeredAt (fair_moment hw hfair hm) hsend
  refine ⟨_, a, hm, rfl, ha, ?_⟩
  simp only [step, hm]
  refine ⟨trivial, ?_, ?_, ?_, trivial⟩
  · rw [sessions_step_self]
    exact ha.session
  · rw [ha.rest, ite_self]
  · rw [hreply, List.nil_append]

variable {Post : List (SessionState × Question × Except String Reported) → R → Prop}

theorem follows_serve (hw : (vaultOf w.service.disk).Readable) (h : Follows conn w t)
    (hholds : t.Holds protocol Post) {env : SessionEnv} (hfair : Fair conn w (.serve env)) :
    Matched conn (w.step conn (.serve env)) t (w.moment conn env).toList := by
  have hidle (hrequest : w.request = []) :
      Matched conn (w.step conn (.serve env)) t (w.moment conn env).toList := by
    rw [serve_nil hrequest, moment_nil hrequest]
    exact matched_idle h
  obtain ⟨client, line, session, served⟩ := t
  obtain ⟨hclient, hsession, hline⟩ := h
  simp only at hclient hsession
  subst hclient hsession
  cases line with
  | answered a up => exact hidle hline.2.1
  | waiting =>
    obtain ⟨hreply, hpending⟩ := hline
    cases hask : w.client with
    | done r =>
      rw [hask] at hpending
      exact hask ▸ hidle hpending.2
    | ask q next =>
      rw [hask] at hpending
      obtain ⟨hup, hrequest⟩ := hpending
      have hsend : q.Sendable (w.service.sessions conn) := by
        rw [hask] at hholds
        exact hholds.1
      obtain ⟨m, a, hm, hs, ha, hclient', hsession', hrequest', hreply', hup'⟩ :=
        matched_serve hw hfair hrequest hsend hreply
      rw [hup, if_pos rfl] at hreply'
      rw [hup, Bool.true_and] at hup'
      rw [hm]
      have hallowed : Talk.Allowed protocol
          (⟨.ask q next, .waiting, w.service.sessions conn, served⟩ : Talk R) (.serve a) := by
        intro q' hq'
        obtain rfl : q = q' := by simpa [Talk.pending] using hq'
        exact ha.answers
      have hcarried : Carried [m] [(w.service.sessions conn, q, a)] := hs ▸ carried_answered ha
      have hnonempty : (w.step conn (.serve env)).reply ≠ [] := hreply' ▸ ha.nonempty
      have hisReply : q.IsReply (w.step conn (.serve env)).reply a := hreply' ▸ ha.reply
      have hfollows (up : Bool) (hgo : m.handled.go = up) : Follows conn (w.step conn (.serve env))
          ⟨.ask q next, .answered a up, q.leads (w.service.sessions conn) a,
            served ++ [(w.service.sessions conn, q, a)]⟩ :=
        ⟨by rw [hclient', hask], hsession'.symm, hup'.trans hgo, hrequest', hnonempty, q, next,
          by rw [hclient', hask], hisReply⟩
      cases hgo : m.handled.go with
      | true => exact ⟨[.serve a], ⟨hallowed, trivial⟩, hfollows true hgo, _, rfl, hcarried⟩
      | false =>
        exact ⟨[.serve a, .hangUp], ⟨hallowed, trivial, trivial⟩, hfollows false hgo, _, rfl, hcarried⟩
  | inFlight q =>
    obtain ⟨hup, hrequest, hreply⟩ := hline
    obtain ⟨m, a, hm, hs, ha, hclient', hsession', hrequest', hreply', hup'⟩ :=
      matched_serve hw hfair hrequest hholds.1 hreply
    rw [hup, if_neg (by decide)] at hreply'
    rw [hup, Bool.false_and] at hup'
    rw [hm]
    refine ⟨[.serve a], ⟨fun q' hq' => ?_, trivial⟩, ⟨hclient'.symm, hsession'.symm, hup', ?_, ?_⟩,
      [(w.service.sessions conn, q, a)], rfl, ?_⟩
    · obtain rfl : q = q' := by simpa [Talk.pending] using hq'
      exact ha.answers
    · exact .inl hrequest'
    · intro q' next _ n
      rw [hreply', List.take_nil]
      exact hear_of_unread rfl
    · rw [← hs]
      exact carried_answered ha
  | lost =>
    obtain ⟨hup, hspent, hlost⟩ := hline
    obtain hnil | ⟨q, n, hsend, hn, hrequest⟩ := hspent
    · exact hidle hnil
    rcases Question.readLine_take_bytes hsend hn with hnone | ⟨input, hinput, hread⟩
    · have hm : w.moment conn env = none := by rw [moment, hrequest, hnone, Option.map_none]
      rw [step, hm]
      exact matched_idle ⟨rfl, rfl, hup, .inr ⟨q, n, hsend, hn, hrequest⟩, hlost⟩
    · have hm : w.moment conn env =
          some ⟨w.envOf env, w.service.sessions conn, q.line, input⟩ := by
        rw [moment, hrequest, hread]
        rfl
      obtain ⟨hreply, hgo, hsame, hother⟩ :=
        Question.handle_short (sound_envOf hfair.1) hsend hinput
      rw [hm]
      refine ⟨[], trivial, ⟨?_, ?_, ?_⟩, [], by simp, carried_unanswered hreply hother⟩
      · rw [step, hm]
        rfl
      · simp only [step, hm]
        rw [sessions_step_self]
        exact hsame.symm
      · simp only [step, hm]
        refine ⟨by rw [hup, Bool.false_and], ?_, ?_⟩
        · exact .inl (by rw [Moment.handled, hgo]; rfl)
        · intro q' next hq' k
          rw [hup]
          exact hlost q' next hq' k

theorem service_write (w : Wire R) : w.write.service = w.service := by
  unfold write
  split
  · rfl
  · split_ifs <;> rfl

theorem service_step_read (w : Wire R) : (w.step conn .read).service = w.service := by
  rw [step]
  split
  · rfl
  · split_ifs
    · rfl
    · exact service_write _

theorem follows_write {client : Client R}
    {served : List (SessionState × Question × Except String Reported)}
    (hrequest : w.request = []) (hup : w.up = true) :
    Follows conn (write { w with client := client, reply := [] })
      ⟨client, .waiting, w.service.sessions conn, served⟩ := by
  cases client with
  | done r => exact ⟨rfl, rfl, rfl, rfl, hrequest⟩
  | ask q next =>
    simp only [write, hup, ↓reduceIte, hrequest, List.nil_append]
    exact ⟨rfl, rfl, rfl, rfl, rfl⟩

theorem write_down (service : Service) (client : Client R) (request reply : Bytes) :
    write ⟨service, client, request, reply, false⟩ = ⟨service, client, request, reply, false⟩ := by
  cases client <;> rfl

theorem follows_read (h : Follows conn w t) : Matched conn (w.step conn .read) t [] := by
  obtain ⟨client, line, session, served⟩ := t
  obtain ⟨hclient, hsession, hline⟩ := h
  simp only at hclient hsession
  subst hclient hsession
  cases hask : w.client with
  | done r =>
    rw [step, hask]
    exact matched_idle ⟨hask.symm, rfl, hline⟩
  | ask q next =>
    rw [step, hask]
    simp only
    cases line with
    | waiting =>
      obtain ⟨hreply, hpending⟩ := hline
      rw [hask] at hpending
      rw [if_pos ⟨hpending.1, hreply⟩]
      exact matched_idle ⟨hask.symm, rfl, hreply, by rw [hask]; exact hpending⟩
    | answered a up =>
      obtain ⟨hup, hrequest, hnonempty, q', next', hask', hisReply⟩ := hline
      obtain ⟨rfl, rfl⟩ : q = q' ∧ next = next' := by simpa [hask] using hask'
      rw [if_neg fun hc => hnonempty hc.2, hisReply.hears]
      refine ⟨[.read (.error "")], ⟨fun q' next' _ => .inl ⟨_, rfl⟩, trivial⟩, ?_, [],
        by simp [Talk.step], carried_nil⟩
      cases up with
      | true => exact follows_write hrequest hup
      | false =>
        rw [hup, write_down]
        refine ⟨rfl, rfl, rfl, .inl hrequest, fun q' next' _ n => ?_⟩
        rw [List.take_nil]
        exact hear_of_unread rfl
    | inFlight q' =>
      obtain ⟨hup, hrequest, hreply⟩ := hline
      have hlost := hear_of_unread (q := q) (b := w.reply) (by rw [hreply]; rfl)
      rw [if_neg fun hc => by simp [hup] at hc, hlost.2, hup, write_down]
      refine ⟨[.read (q.hear w.reply).1], ⟨?_, trivial⟩, ⟨rfl, rfl, rfl, hrequest, rfl⟩, [],
        by simp [Talk.step], carried_nil⟩
      intro q'' next'' hq''
      obtain ⟨rfl, rfl⟩ : q = q'' ∧ next = next'' := by simpa using hq''
      exact hlost.1
    | lost =>
      obtain ⟨hup, hspent, hlost⟩ := hline
      have hreply := hlost q next hask w.reply.length
      rw [List.take_length] at hreply
      rw [if_neg fun hc => by simp [hup] at hc, hreply.2, hup, write_down]
      refine ⟨[.read (q.hear w.reply).1], ⟨?_, trivial⟩, ⟨rfl, rfl, rfl, hspent, ?_⟩, [],
        by simp [Talk.step], carried_nil⟩
      · intro q'' next'' hq''
        obtain ⟨rfl, rfl⟩ : q = q'' ∧ next = next'' := by simpa using hq''
        exact hreply.1
      · intro q'' next'' _ n
        rw [List.take_nil]
        exact hear_of_unread rfl

theorem spent_take {s : SessionState} {request : Bytes} (h : Spent s request) (n : ℕ) :
    Spent s (request.take n) := by
  obtain rfl | ⟨q, k, hsend, hk, rfl⟩ := h
  · exact .inl List.take_nil
  · exact .inr ⟨q, min n k, hsend, (min_le_right n k).trans_lt hk, List.take_take⟩

/-- The connection ends in front of a part of a question. -/
theorem follows_cut (h : Follows conn w t) (hholds : t.Holds protocol Post) (requested replied : ℕ) :
    Matched conn (w.step conn (.cut requested replied)) t [] := by
  obtain ⟨client, line, session, served⟩ := t
  obtain ⟨hclient, hsession, hline⟩ := h
  simp only at hclient hsession
  subst hclient hsession
  have hempty (q : Question) (n : ℕ) : q.Lost (q.hear (([] : Bytes).take n)).1 ∧
      (q.hear (([] : Bytes).take n)).2 = [] := by
    rw [List.take_nil]
    exact hear_of_unread rfl
  cases line with
  | waiting =>
    obtain ⟨hreply, hpending⟩ := hline
    cases hask : w.client with
    | done r =>
      rw [hask] at hpending
      refine matched_idle ⟨hask.symm, rfl, ?_, ?_⟩
      · rw [step, hreply, List.take_nil]
      · simp only [step, hask, hpending.2, List.take_nil]
        trivial
    | ask q next =>
      rw [hask] at hpending
      obtain ⟨hup, hrequest⟩ := hpending
      rcases Nat.lt_or_ge requested q.bytes.length with hlt | hge
      · refine ⟨[.lose], ⟨trivial, trivial⟩, ⟨hask.symm, rfl, rfl, ?_, ?_⟩, [], by simp [Talk.step],
          carried_nil⟩
        · rw [hask] at hholds
          exact .inr ⟨q, requested, hholds.1, hlt, by rw [step, hrequest]⟩
        · intro q' next' _ n
          simp only [step, hreply, List.take_nil]
          simpa using hempty q' n
      · refine ⟨[.hangUp], ⟨trivial, trivial⟩, ⟨hask.symm, rfl, rfl, ?_, ?_⟩, [], by simp [Talk.step],
          carried_nil⟩
        · simp only [step]
          rw [hrequest, List.take_of_length_le hge]
        · simp only [step, hreply, List.take_nil]
  | answered a up =>
    obtain ⟨hup, hrequest, hnonempty, q, next, hask, hisReply⟩ := hline
    rcases Nat.lt_or_ge replied w.reply.length with hlt | hge
    · refine ⟨[.lose], ⟨trivial, trivial⟩, ⟨rfl, rfl, rfl, ?_, ?_⟩, [], by simp [Talk.step],
        carried_nil⟩
      · exact .inl (by simp only [step, hrequest, List.take_nil])
      · intro q' next' hq' n
        obtain ⟨rfl, rfl⟩ : q = q' ∧ next = next' := by
          have hq' : w.client = .ask q' next' := hq'
          simpa [hask] using hq'
        simp only [step, List.take_take]
        exact hisReply.part _ ((min_le_right _ _).trans_lt hlt)
    · refine ⟨[.hangUp], ⟨trivial, trivial⟩, ⟨rfl, rfl, rfl, ?_, ?_, ?_⟩, [], by simp [Talk.step],
        carried_nil⟩
      · simp only [step, hrequest, List.take_nil]
      · simpa only [step, List.take_of_length_le hge] using hnonempty
      · refine ⟨q, next, hask, ?_⟩
        simpa only [step, List.take_of_length_le hge] using hisReply
  | inFlight q =>
    obtain ⟨hup, hrequest, hreply⟩ := hline
    rcases Nat.lt_or_ge requested q.bytes.length with hlt | hge
    · refine ⟨[.lose], ⟨trivial, trivial⟩, ⟨rfl, rfl, rfl, ?_, ?_⟩, [], by simp [Talk.step],
        carried_nil⟩
      · exact .inr ⟨q, requested, hholds.1, hlt, by rw [step, hrequest]⟩
      · intro q' next' _ n
        simp only [step, hreply, List.take_nil]
        simpa using hempty q' n
    · refine matched_idle ⟨rfl, rfl, rfl, ?_, ?_⟩
      · simp only [step]
        rw [hrequest, List.take_of_length_le hge]
      · simp only [step, hreply, List.take_nil]
  | lost =>
    obtain ⟨hup, hspent, hlost⟩ := hline
    refine matched_idle ⟨rfl, rfl, rfl, spent_take hspent requested, fun q next hq n => ?_⟩
    simp only [step, List.take_take]
    exact hlost q next hq _

theorem leavesReadable_moment (hw : (vaultOf w.service.disk).Readable) (h : Follows conn w t)
    (hholds : t.Holds protocol Post) {env : SessionEnv} (hfair : Fair conn w (.serve env)) {m : Moment}
    (hm : w.moment conn env = some m) : m.request.LeavesReadable := by
  have hnil (hrequest : w.request = []) : m.request.LeavesReadable := by
    rw [moment_nil hrequest] at hm
    contradiction
  have hquestion {q : Question} (hrequest : w.request = q.bytes)
      (hsend : q.Sendable (w.service.sessions conn)) : m.request.LeavesReadable := by
    have hmfair := fair_moment hw hfair hm
    rw [moment_question hrequest hsend, Option.some.injEq] at hm
    subst hm
    obtain ⟨a, ha⟩ := Question.exists_answeredAt hmfair hsend
    exact Question.leavesReadable_of_truly hmfair hsend ha.truly
  obtain ⟨client, line, session, served⟩ := t
  obtain ⟨hclient, hsession, hline⟩ := h
  simp only at hclient hsession
  subst hclient hsession
  cases line with
  | answered a up => exact hnil hline.2.1
  | waiting =>
    have hpending := hline.2
    cases hask : w.client with
    | done r =>
      rw [hask] at hpending
      exact hnil hpending.2
    | ask q next =>
      rw [hask] at hpending hholds
      exact hquestion hpending.2 hholds.1
  | inFlight q => exact hquestion hline.2.1 hholds.1
  | lost =>
    obtain hrequest | ⟨q, n, hsend, hn, hrequest⟩ := hline.2.1
    · exact hnil hrequest
    rcases Question.readLine_take_bytes hsend hn with hnone | ⟨input, hinput, hread⟩
    · rw [moment, hrequest, hnone] at hm
      contradiction
    · rw [moment, hrequest, hread, Option.map_some, Option.some.injEq] at hm
      subst hm
      have hsound : (w.envOf env).Sound := sound_envOf hfair.1
      have hother := (Question.handle_short hsound hsend hinput).2.2.2
      change (Session.asks _ (w.envOf env).now q.line input).LeavesReadable
      rw [hother]
      trivial

theorem readable_step (hw : (vaultOf w.service.disk).Readable) (h : Follows conn w t)
    (hholds : t.Holds protocol Post) {e : Event} (hfair : Fair conn w e) :
    (vaultOf (w.step conn e).service.disk).Readable := by
  have hstep (e : Service.Event) (he : e.env.Sound) (hleaves : (w.service.asks e).LeavesReadable) :
      (vaultOf (w.service.step e).disk).Readable := by
    rw [Service.refines_vault.step_abs w.service e he]
    exact hw.step hleaves
  cases e with
  | other e => exact hstep e hfair.1 hfair.2.1
  | serve env =>
    cases hm : w.moment conn env with
    | none => rwa [step, hm]
    | some m =>
      obtain ⟨⟨line, input⟩, -, rfl⟩ := Option.map_eq_some_iff.mp hm
      simp only [step, hm]
      exact hstep (.command conn env line input) hfair.1 (leavesReadable_moment hw h hholds hfair hm)
  | read =>
    rwa [service_step_read]
  | cut requested replied => exact hw

theorem matched_step (hw : (vaultOf w.service.disk).Readable) (h : Follows conn w t)
    (hholds : t.Holds protocol Post) {e : Event} (hfair : Fair conn w e) :
    Matched conn (w.step conn e) t (w.momentOf conn e).toList := by
  cases e with
  | other e => exact follows_other h hfair
  | serve env => exact follows_serve hw h hholds hfair
  | read => exact follows_read h
  | cut requested replied => exact follows_cut h hholds requested replied

theorem moments_cons (w : Wire R) (e : Event) (es : List Event) :
    moments conn w (e :: es) = (w.momentOf conn e).toList ++ moments conn (w.step conn e) es := by
  rw [moments, trace_cons]
  cases w.momentOf conn e with
  | none => exact List.reduceOption_cons_of_none _
  | some m => exact List.reduceOption_cons_of_some m _

theorem matched_run {es : List Event} (hw : (vaultOf w.service.disk).Readable)
    (h : Follows conn w t) (hholds : t.Holds protocol Post)
    (hes : Along (step conn) (Fair conn) w es) :
    ∃ t' : Talk R, Follows conn (run (step conn) w es) t' ∧ t'.Holds protocol Post ∧
      ∃ l, t'.served = t.served ++ l ∧ Carried (moments conn w es) l := by
  induction es generalizing w t with
  | nil => exact ⟨t, h, hholds, [], by simp, carried_nil⟩
  | cons e es ih =>
    obtain ⟨hfair, hes⟩ := hes
    obtain ⟨fs, hallowed, hfollows, l, hserved, hcarried⟩ := matched_step hw h hholds hfair
    have hholds' := Talk.holds_run hholds hallowed
    obtain ⟨t', hfollows', hholds'', l', hserved', hcarried'⟩ :=
      ih (readable_step hw h hholds hfair) hfollows hholds' hes
    refine ⟨t', hfollows', hholds'', l ++ l', ?_, ?_⟩
    · rw [hserved', hserved, List.append_assoc]
    · rw [moments_cons]
      exact hcarried.append hcarried'

theorem follows_start (s : Service) (d : Client R) :
    Follows conn (start s d) (Talk.start (s.sessions conn) d) :=
  follows_write (w := ⟨s, d, [], [], true⟩) rfl rfl

theorem exists_lost (q : Question) : ∃ b, protocol.lost q b := ⟨.error "", .inl ⟨"", rfl⟩⟩

/-- Whatever the rules for dialogues say of a client is true of it on its connection: at any time the
lines the server has answered are questions of the client, each answered truly, and fit a result the
client can still come to; when it ends they fit its result. -/
theorem conversation_ensures {s : Service} {d : Client R} {es : List Event}
    (hv : (vaultOf s.disk).Readable)
    (hd : d.Ensures protocol (some (s.sessions conn)) fun l _ => Post l)
    (h : Along (step conn) (Fair conn) (start s d) es) :
    ∃ served, Carried (moments conn (start s d) es) served ∧ (∃ r, Post served r) ∧
      ∀ r, (run (step conn) (start s d) es).client = .done r → Post served r := by
  have hstart : (vaultOf (start s d).service.disk).Readable := by
    cases d <;> exact hv
  obtain ⟨t, hfollows, hholds, l, hserved, hcarried⟩ :=
    matched_run hstart (follows_start s d) (Talk.holds_start hd) h
  have hserved : t.served = l := hserved
  refine ⟨l, hcarried, hserved ▸ Talk.exists_post exists_lost hholds, fun r hr => ?_⟩
  exact hserved ▸ Talk.post_of_done hholds (hfollows.client.trans hr)

end Wire

end PersonalCloud
