import PersonalCloud.Library.Machine

/-! A party that asks a server one question after the other over a connection that can be lost at
any time, and what its result says about the questions that were served. -/

inductive Dialogue (Q A R : Type*) where
  | done (result : R)
  | ask (question : Q) (next : A → Dialogue Q A R)

namespace Dialogue

open Machine

variable {Q A R R' S : Type*}

def bind : Dialogue Q A R → (R → Dialogue Q A R') → Dialogue Q A R'
  | done r, f => f r
  | ask q next, f => ask q fun a => (next a).bind f

def map (f : R → R') (d : Dialogue Q A R) : Dialogue Q A R' := d.bind fun r => done (f r)

/-- What may be asked in a session, how it may be answered, what the answer makes of the session, and
what the asker may take for an answer when the connection gives none. -/
structure Protocol (Q A S : Type*) where
  may : S → Q → Prop
  answers : S → Q → A → Prop
  leads : S → Q → A → S
  lost : Q → A → Prop

variable (p : Protocol Q A S)

/-- However the answers turn out and wherever the connection is lost, the dialogue ends with a
result that fits the questions served by then, each given with its session and its answer. Of the
session, `none` stands for a lost connection; the last question asked before may have been served. -/
def Ensures : Dialogue Q A R → Option S → (List (S × Q × A) → Option S → R → Prop) → Prop
  | done r, s, Post => Post [] s r
  | ask q next, none, Post => ∀ b, p.lost q b → (next b).Ensures none Post
  | ask q next, some s, Post => p.may s q ∧
      (∀ a, p.answers s q a →
        (next a).Ensures (some (p.leads s q a)) fun l => Post ((s, q, a) :: l)) ∧
      (∀ b, p.lost q b → (next b).Ensures none Post) ∧
      ∀ a b, p.answers s q a → p.lost q b → (next b).Ensures none fun l => Post ((s, q, a) :: l)

variable {p} {d : Dialogue Q A R} {s : Option S} {Post Post' : List (S × Q × A) → Option S → R → Prop}

theorem Ensures.mono (h : d.Ensures p s Post) (himp : ∀ l s r, Post l s r → Post' l s r) :
    d.Ensures p s Post' := by
  induction d generalizing s Post Post' with
  | done r => exact himp _ _ _ h
  | ask q next ih =>
    cases s with
    | none => exact fun b hb => ih b (h b hb) himp
    | some s =>
      obtain ⟨hmay, hserved, hlost, hdoubt⟩ := h
      refine ⟨hmay, fun a ha => ih a (hserved a ha) fun l => himp _,
        fun b hb => ih b (hlost b hb) himp, ?_⟩
      exact fun a b ha hb => ih b (hdoubt a b ha hb) fun l => himp _

theorem ensures_bind {f : R → Dialogue Q A R'} {Post : List (S × Q × A) → Option S → R' → Prop} :
    (d.bind f).Ensures p s Post ↔
      d.Ensures p s fun l s r => (f r).Ensures p s fun l' => Post (l ++ l') := by
  induction d generalizing s Post with
  | done r => rfl
  | ask q next ih =>
    cases s with
    | none => exact forall₂_congr fun b _ => ih b
    | some s =>
      refine and_congr_right fun _ => and_congr ?_ (and_congr ?_ ?_)
      · exact forall₂_congr fun a _ => ih a
      · exact forall₂_congr fun b _ => ih b
      · exact forall₄_congr fun a b _ _ => ih b

theorem ensures_map {f : R → R'} {Post : List (S × Q × A) → Option S → R' → Prop} :
    (d.map f).Ensures p s Post ↔ d.Ensures p s fun l s r => Post l s (f r) := by
  simp only [map, ensures_bind, Ensures, List.append_nil]

theorem Ensures.lost {s : S} (Post : List (S × Q × A) → R → Prop)
    (h : d.Ensures p (some s) fun l _ => Post l) : d.Ensures p none fun l _ => Post l := by
  cases d with
  | done r => exact h
  | ask q next => exact h.2.2.1

/-- Whatever a party is told of a lost connection, it comes to an end. -/
theorem Ensures.exists_post (hlost : ∀ q, ∃ b, p.lost q b) (h : d.Ensures p none Post) :
    ∃ r, Post [] none r := by
  induction d with
  | done r => exact ⟨r, h⟩
  | ask q next ih =>
    obtain ⟨b, hb⟩ := hlost q
    exact ih b (h b hb)

/-- It ends after this many answers at most. -/
def AtMost : ℕ → Dialogue Q A R → Prop
  | _, done _ => True
  | 0, ask .. => False
  | n + 1, ask _ next => ∀ a, (next a).AtMost n

@[simp] theorem atMost_done (n : ℕ) (r : R) : (done r : Dialogue Q A R).AtMost n := by
  cases n <;> trivial

theorem AtMost.succ {n : ℕ} {d : Dialogue Q A R} (h : d.AtMost n) : d.AtMost (n + 1) := by
  induction n generalizing d with
  | zero =>
    cases d with
    | done r => trivial
    | ask q next => exact h.elim
  | succ n ih =>
    cases d with
    | done r => trivial
    | ask q next => exact fun a => ih (h a)

theorem AtMost.next {n : ℕ} {q : Q} {next : A → Dialogue Q A R} (h : (ask q next).AtMost n) (a : A) :
    (next a).AtMost n := by
  cases n with
  | zero => exact h.elim
  | succ n => exact (h a).succ

theorem AtMost.bind {n m : ℕ} {f : R → Dialogue Q A R'} {d : Dialogue Q A R} (h : d.AtMost n)
    (hf : ∀ r, (f r).AtMost m) : (d.bind f).AtMost (m + n) := by
  induction n generalizing d with
  | zero =>
    cases d with
    | done r => exact hf r
    | ask q next => exact h.elim
  | succ n ih =>
    cases d with
    | done r =>
      induction n + 1 with
      | zero => exact hf r
      | succ k ihk => exact ihk.succ
    | ask q next => exact fun a => ih (h a)

theorem exists_of_atMost_zero {d : Dialogue Q A R} (h : d.AtMost 0) : ∃ r, d = done r := by
  cases d with
  | done r => exact ⟨r, rfl⟩
  | ask q next => exact h.elim

def result : Dialogue Q A R → Option R
  | done r => some r
  | ask .. => none

theorem result_eq_some {r : R} : d.result = some r ↔ d = done r := by
  cases d with
  | done r' => simp [result]
  | ask q next => simp [result]

inductive Line (Q A : Type*) where
  | waiting
  /-- An answer is there to be read; `up` tells whether another question can be asked. -/
  | answered (a : A) (up : Bool)
  /-- Lost, with a question that can still reach the server. -/
  | inFlight (q : Q)
  | lost

/-- The asker, the connection, the session at the server, and the questions served so far. -/
structure Talk (Q A R S : Type*) where
  client : Dialogue Q A R
  line : Line Q A
  session : S
  served : List (S × Q × A)

namespace Talk

inductive Event (A : Type*) where
  | serve (a : A)
  /-- The asker reads; without an answer it takes `b` for one. -/
  | read (b : A)
  /-- Nothing can be asked from now on. -/
  | hangUp
  /-- The same, and what is on its way does not arrive. -/
  | lose

def answer (p : Protocol Q A S) (t : Talk Q A R S) (q : Q) (a : A) (line : Line Q A) :
    Talk Q A R S :=
  { t with line := line, session := p.leads t.session q a, served := t.served ++ [(t.session, q, a)] }

def step (p : Protocol Q A S) (t : Talk Q A R S) : Event A → Talk Q A R S
  | .serve a =>
      match t.line, t.client with
      | .waiting, .ask q _ => t.answer p q a (.answered a true)
      | .inFlight q, _ => t.answer p q a .lost
      | _, _ => t
  | .read b =>
      match t.line, t.client with
      | .answered a up, .ask _ next =>
          { t with client := next a, line := if up then .waiting else .lost }
      | .inFlight _, .ask _ next => { t with client := next b }
      | .lost, .ask _ next => { t with client := next b }
      | _, _ => t
  | .hangUp =>
      match t.line, t.client with
      | .waiting, .ask q _ => { t with line := .inFlight q }
      | .waiting, .done _ => { t with line := .lost }
      | .answered a _, _ => { t with line := .answered a false }
      | _, _ => t
  | .lose => { t with line := .lost }

def pending (t : Talk Q A R S) : Option Q :=
  match t.line, t.client with
  | .waiting, .ask q _ => some q
  | .inFlight q, _ => some q
  | _, _ => none

/-- A question is answered as it may be, and what is taken for an answer that does not come is what
may be taken for one. -/
def Allowed (p : Protocol Q A S) (t : Talk Q A R S) : Event A → Prop
  | .serve a => ∀ q ∈ t.pending, p.answers t.session q a
  | .read b => ∀ q next, t.client = .ask q next → p.lost q b
  | _ => True

/-- What the rest of the dialogue still ensures. -/
def Holds (p : Protocol Q A S) (Post : List (S × Q × A) → R → Prop) (t : Talk Q A R S) : Prop :=
  match t.line with
  | .waiting => t.client.Ensures p (some t.session) fun l _ => Post (t.served ++ l)
  | .answered a up => ∃ q next, t.client = .ask q next ∧
      ((next a).Ensures p (if up then some t.session else none) fun l _ => Post (t.served ++ l)) ∧
      ∀ b, p.lost q b → (next b).Ensures p none fun l _ => Post (t.served ++ l)
  | .inFlight q => p.may t.session q ∧
      (t.client.Ensures p none fun l _ => Post (t.served ++ l)) ∧
      ∀ a, p.answers t.session q a →
        t.client.Ensures p none fun l _ => Post (t.served ++ (t.session, q, a) :: l)
  | .lost => t.client.Ensures p none fun l _ => Post (t.served ++ l)

def start (s : S) (d : Dialogue Q A R) : Talk Q A R S := ⟨d, .waiting, s, []⟩

variable {p : Protocol Q A S} {Post : List (S × Q × A) → R → Prop} {t : Talk Q A R S}

theorem holds_serve (h : t.Holds p Post) {a : A} (ha : t.Allowed p (.serve a)) :
    (t.step p (.serve a)).Holds p Post := by
  obtain ⟨client, line, session, served⟩ := t
  cases line with
  | waiting =>
    cases client with
    | done r => exact h
    | ask q next =>
      obtain ⟨-, hserved, -, hdoubt⟩ := h
      have hanswer : p.answers session q a := ha q rfl
      refine ⟨q, next, rfl, ?_, fun b hb => ?_⟩
      · simpa [step, answer] using hserved a hanswer
      · simpa [step, answer] using hdoubt a b hanswer hb
  | inFlight q => simpa [step, answer, Holds] using h.2.2 a (ha q rfl)
  | answered a up => exact h
  | lost => exact h

theorem holds_read (h : t.Holds p Post) {b : A} (hb : t.Allowed p (.read b)) :
    (t.step p (.read b)).Holds p Post := by
  obtain ⟨client, line, session, served⟩ := t
  cases client with
  | done r => cases line <;> exact h
  | ask q next =>
    have hlost : p.lost q b := hb q next rfl
    cases line with
    | waiting => exact h
    | answered a up =>
      obtain ⟨q', next', heq, hnext, -⟩ := h
      obtain ⟨-, rfl⟩ : q = q' ∧ next = next' := by simpa using heq
      cases up with
      | true => exact hnext
      | false => exact hnext
    | inFlight q' => exact ⟨h.1, h.2.1 b hlost, fun a ha => h.2.2 a ha b hlost⟩
    | lost => exact h b hlost

theorem holds_hangUp (h : t.Holds p Post) : (t.step p .hangUp).Holds p Post := by
  obtain ⟨client, line, session, served⟩ := t
  cases line with
  | waiting =>
    cases client with
    | done r => exact h
    | ask q next =>
      obtain ⟨hmay, -, hlost, hdoubt⟩ := h
      exact ⟨hmay, hlost, fun a ha b hb => hdoubt a b ha hb⟩
  | answered a up =>
    obtain ⟨q, next, hclient, hnext, hlost⟩ := h
    refine ⟨q, next, hclient, ?_, hlost⟩
    cases up with
    | true => exact Ensures.lost (fun l => Post (served ++ l)) hnext
    | false => exact hnext
  | inFlight q => exact h
  | lost => exact h

theorem holds_lose (h : t.Holds p Post) : (t.step p .lose).Holds p Post := by
  obtain ⟨client, line, session, served⟩ := t
  cases line with
  | waiting => exact Ensures.lost (fun l => Post (served ++ l)) h
  | answered a up =>
    obtain ⟨q, next, rfl, -, hlost⟩ := h
    exact hlost
  | inFlight q => exact h.2.1
  | lost => exact h

theorem holds_step (t : Talk Q A R S) (e : Event A) (h : t.Holds p Post) (he : t.Allowed p e) :
    (t.step p e).Holds p Post := by
  cases e with
  | serve a => exact holds_serve h he
  | read b => exact holds_read h he
  | hangUp => exact holds_hangUp h
  | lose => exact holds_lose h

theorem holds_run {es : List (Event A)} (h : t.Holds p Post)
    (hes : Along (step p) (Allowed p) t es) : (run (step p) t es).Holds p Post :=
  inv_run holds_step h hes

theorem holds_start {d : Dialogue Q A R} {s : S}
    (h : d.Ensures p (some s) fun l _ => Post l) : (start s d).Holds p Post := h

theorem post_of_done (h : t.Holds p Post) {r : R} (hdone : t.client = .done r) :
    Post t.served r := by
  obtain ⟨client, line, session, served⟩ := t
  subst hdone
  cases line with
  | waiting => simpa [Holds, Ensures] using h
  | answered a up =>
    obtain ⟨q, next, hclient, -⟩ := h
    contradiction
  | inFlight q => simpa [Ensures] using h.2.1
  | lost => simpa [Holds, Ensures] using h

/-- Before the end, the questions served fit a result that can still come of it. -/
theorem exists_post (hlost : ∀ q, ∃ b, p.lost q b) (h : t.Holds p Post) : ∃ r, Post t.served r := by
  obtain ⟨client, line, session, served⟩ := t
  have hend (hclient : client.Ensures p none fun l _ => Post (served ++ l)) :
      ∃ r, Post served r := by
    obtain ⟨r, hr⟩ := hclient.exists_post hlost
    rw [List.append_nil] at hr
    exact ⟨r, hr⟩
  cases line with
  | waiting => exact hend (Ensures.lost (fun l => Post (served ++ l)) h)
  | answered a up =>
    obtain ⟨q, next, hclient, -, hunread⟩ := h
    subst hclient
    exact hend hunread
  | inFlight q => exact hend h.2.1
  | lost => exact hend h

end Talk

end Dialogue
