import PersonalCloud.Client.Calls
import PersonalCloud.Client.Exchange
import PersonalCloud.Library.Dialogue

/-! The commands as dialogues with the other end: the handshake of a connection, the calls, and what
a command makes of the replies or of a connection that ends. -/
namespace PersonalCloud

open Proto Channel

namespace Remote

/-- What a client writes before it waits for a reply. -/
inductive Question where
  | ping
  | hello
  | login (user password : Bytes)
  | auth (token : Bytes)
  | call (c : Call)

namespace Question

def line : Question → Bytes
  | ping => kPing
  | hello => sp kHello Config.kProtocol
  | login user password => loginLine user password
  | auth token => sp kAuth token
  | call c => c.line

def body : Question → Bytes
  | call c => c.body
  | _ => []

def bytes (q : Question) : Bytes := sendLine q.line ++ q.body

end Question

/-- `reachable` gives no reason. -/
def pingReply : Option Bytes → Except String Unit
  | none => .error ""
  | some reply => if reply = kPong then .ok () else .error ""

def helloReply : Option Bytes → Except String Unit
  | none => .error "handshake failed with"
  | some reply =>
      match split reply with
      | [ok, version] =>
          if ok ≠ kOk then .error "unexpected handshake reply"
          else if version ≠ Config.kProtocol then .error "server speaks"
          else .ok ()
      | _ => .error "unexpected handshake reply"

def loginReply : Option Bytes → Except String Unit :=
  okReply "login request failed" "the server rejected that account or password"

def authReply : Option Bytes → Except String Unit :=
  okReply "token request failed" "the peer rejected the machine token"

/-- What a call that fails leaves unread: a body or a listing that ends early is read to its end. -/
def Call.unread (c : Call) (incoming : Bytes) : Bytes :=
  let line := readLine incoming
  let reply := line.map Prod.fst
  let behind := (line.map Prod.snd).getD []
  match c with
  | getFile _ => if (getFileReply reply).toOption.isSome then [] else behind
  | getChunk _ => if (getChunkReply reply).toOption.isSome then [] else behind
  | list => if (listReply reply).toOption.isSome then [] else behind
  | _ => behind

/-- What the client makes of all that arrives, and what it leaves unread. -/
def Question.hear (q : Question) (incoming : Bytes) : Except String Reported × Bytes :=
  let line := readLine incoming
  let reply := line.map Prod.fst
  let behind := (line.map Prod.snd).getD []
  match q with
  | ping => ((pingReply reply).map fun _ => .confirmed, behind)
  | hello => ((helloReply reply).map fun _ => .confirmed, behind)
  | login .. => ((loginReply reply).map fun _ => .confirmed, behind)
  | auth _ => ((authReply reply).map fun _ => .confirmed, behind)
  | call c =>
      match c.receive incoming with
      | .ok (report, rest) => (.ok report, rest)
      | .error e => (.error e, c.unread incoming)

/-- What a client still does on a connection. -/
abbrev Client (R : Type) := Dialogue Question (Except String Reported) R

open Dialogue in
/-- The handshake of `connect`, with the credential that has to be there and the question that
proves it. -/
def connectWith (credential : Bytes) (missing : String) (signIn : Question) :
    Client (Except String Unit) :=
  ask .hello fun hello =>
    match hello with
    | .error e => done (.error e)
    | .ok _ =>
        if credential.isEmpty then done (.error missing)
        else ask signIn fun reply => done (reply.map fun _ => ())

/-- `Access::Files` -/
def connectFiles (user password : Bytes) : Client (Except String Unit) :=
  connectWith user "no account given: pass --user (and --password, or let it prompt)"
    (.login user password)

/-- `Access::Chunks` -/
def connectChunks (token : Bytes) : Client (Except String Unit) :=
  connectWith token "no machine token given: pass --token or set PCS_TOKEN" (.auth token)

inductive Outcome where
  | notValid
  | unreachable (error : String)
  | failed (error : String)
  | notThere
  | listed (files : List Listed)
  | deleted
  | identical
  | stored
  deriving DecidableEq

def Outcome.exitCode : Outcome → ℕ
  | listed _ | deleted | identical | stored => 0
  | notValid | unreachable _ | failed _ | notThere => 1

open Dialogue in
def reachable : Client Bool := ask .ping fun reply => done reply.toOption.isSome

open Dialogue in
/-- The farewell; its reply is read and not looked at. -/
def quitWith {R : Type} (result : R) : Client R := ask (.call .quit) fun _ => done result

open Dialogue in
/-- One call on a connection of its own; `.error` when there is no connection. -/
def callAlone (connect : Client (Except String Unit)) (c : Call) :
    Client (Except String (Except String Reported)) :=
  connect.bind fun connected =>
    match connected with
    | .error e => done (.error e)
    | .ok () =>
        ask (.call c) fun report =>
          match report with
          | .ok told => quitWith (.ok (.ok told))
          | .error e => done (.ok (.error e))

/-- The outcome of a command that makes one call, given what it is without a call that succeeds. -/
def outcomeOf (told : Reported → Outcome) : Except String (Except String Reported) → Outcome
  | .error e => .unreachable e
  | .ok (.error e) => .failed e
  | .ok (.ok report) => told report

def ofListing : Reported → Outcome
  | .listing files => .listed files
  | _ => .failed ""

def cmdList (user password : Bytes) : Client Outcome :=
  (callAlone (connectFiles user password) .list).map (outcomeOf ofListing)

def cmdDelete (user password name : Bytes) : Client Outcome :=
  if isSafeName name = false then .done .notValid
  else
    (callAlone (connectFiles user password) (.delFile name)).map
      (outcomeOf fun found => if found = .confirmed then .deleted else .notThere)

def placeChunk (token id content : Bytes) : Client Outcome :=
  (callAlone (connectChunks token) (.putChunk id content)).map (outcomeOf fun _ => .stored)

def sameContent (tag : Bytes) : Except String Reported → Bool
  | .ok (.info _ existing) => !tag.isEmpty && decide (existing = tag)
  | _ => false

open Dialogue in
def transfer (name stream tag : Bytes) : Client Outcome :=
  ask (.call (.putFile name stream tag)) fun report =>
    match report with
    | .ok _ => quitWith .stored
    | .error e => done (.failed e)

open Dialogue in
/-- The transfer of a sealed stream, left out when the server has the same content. -/
def uploadToServer (user password name stream tag : Bytes) : Client Outcome :=
  (connectFiles user password).bind fun connected =>
    match connected with
    | .error e => done (.unreachable e)
    | .ok () =>
        ask (.call (.stat name)) fun info =>
          if sameContent tag info then quitWith .identical else transfer name stream tag

end Remote

namespace Channel

theorem readLineFrom_append {b out line rest : Bytes} (h : readLineFrom b out = some (line, rest))
    (more : Bytes) : readLineFrom (b ++ more) out = some (line, rest ++ more) := by
  induction b generalizing out with
  | nil => simp [readLineFrom] at h
  | cons c cs ih =>
    rw [List.cons_append, readLineFrom]
    rw [readLineFrom] at h
    split_ifs at h ⊢
    · obtain ⟨rfl, rfl⟩ : out = line ∧ cs = rest := by simpa using h
      rfl
    · exact ih h
    · exact ih h

theorem readLine_append {b line rest : Bytes} (h : readLine b = some (line, rest)) (more : Bytes) :
    readLine (b ++ more) = some (line, rest ++ more) := readLineFrom_append h more

theorem readLine_take_sendLine {line : Bytes} (h : 10 ∉ line) {n : ℕ}
    (hn : n < (sendLine line).length) : readLine ((sendLine line).take n) = none := by
  have hle : n ≤ line.length := by
    simp only [sendLine, List.length_append, List.length_cons, List.length_nil] at hn
    omega
  rw [sendLine, List.take_append_of_le_length hle]
  exact readLineFrom_of_no_break (fun hmem => h (List.mem_of_mem_take hmem)) []

end Channel

namespace Remote

variable {α : Type} {c : Call} {q : Question} {b reply : Bytes} {a : Except String Reported}

theorem readListing_append {n : ℕ} {l : List Listed} {rest : Bytes}
    (h : readListing n b = .ok (l, rest)) (more : Bytes) :
    readListing n (b ++ more) = .ok (l, rest ++ more) := by
  induction n generalizing b l with
  | zero =>
    obtain ⟨rfl, rfl⟩ : [] = l ∧ b = rest := by simpa [readListing] using h
    rfl
  | succ n ih =>
    rw [readListing] at h ⊢
    cases hread : readLine b with
    | none => simp [hread] at h
    | some got =>
      simp only [hread, readLine_append hread] at h ⊢
      cases htail : readListing n got.2 with
      | error e => simp [htail] at h
      | ok tail =>
        obtain ⟨out, behind⟩ := tail
        obtain ⟨rfl, rfl⟩ : (readListed got.1).toList ++ out = l ∧ behind = rest := by
          simpa [htail] using h
        rw [ih htail]

theorem reportBody_append {size : ℕ} {behind rest : Bytes} {report : Reported}
    (h : reportBody behind (match readBodyToFile .done size behind none with
      | (.error e, dest) => (.error e, dest)
      | (.ok (), dest) => (.ok true, dest)) = .ok (report, rest)) (more : Bytes) :
    reportBody (behind ++ more) (match readBodyToFile .done size (behind ++ more) none with
      | (.error e, dest) => (.error e, dest)
      | (.ok (), dest) => (.ok true, dest)) = .ok (report, rest ++ more) := by
  by_cases hsize : behind.length < size
  · simp [readBodyToFile, hsize, reportBody] at h
  · have hle : size ≤ behind.length := not_lt.mp hsize
    have hmore : ¬ (behind ++ more).length < size := by
      rw [List.length_append]
      omega
    simp only [readBodyToFile, if_neg hsize, if_neg hmore, reportBody, Option.getD_some,
      List.length_take, min_eq_left hle, List.take_append_of_le_length hle] at h ⊢
    obtain ⟨hreport, hrest⟩ : Reported.body (behind.take size) = report ∧
        behind.drop size = rest := by simpa using h
    rw [List.drop_append_of_le_length hle, hreport, hrest]

theorem rest_of_map {x : Except String α} {f : α → Reported} {behind rest : Bytes}
    {report : Reported} (h : (x.map fun y => (f y, behind)) = .ok (report, rest)) : behind = rest := by
  cases x with
  | error e => simp [Except.map] at h
  | ok y =>
    obtain ⟨-, hrest⟩ : f y = report ∧ behind = rest := by simpa [Except.map] using h
    exact hrest

theorem map_append {x : Except String α} {f : α → Reported} {behind rest : Bytes}
    {report : Reported} (h : (x.map fun y => (f y, behind)) = .ok (report, rest)) (more : Bytes) :
    (x.map fun y => (f y, behind ++ more)) = .ok (report, rest ++ more) := by
  cases x with
  | error e => simp [Except.map] at h
  | ok y =>
    obtain ⟨rfl, rfl⟩ : f y = report ∧ behind = rest := by simpa [Except.map] using h
    rfl

theorem receive_append (hquit : c ≠ .quit) {report : Reported} {rest : Bytes}
    (h : c.receive b = .ok (report, rest)) (more : Bytes) :
    c.receive (b ++ more) = .ok (report, rest ++ more) := by
  cases hread : readLine b with
  | none =>
    cases c with
    | quit => exact absurd rfl hquit
    | stat | putFile | getFile | delFile | putChunk | getChunk | delChunk | list =>
      simp [Call.receive, hread, statReply, putFileReply, okReply, Remote.getFile, getFileReply,
        dataReply, reportBody, delFileReply, putChunkReply, Remote.getChunk, getChunkReply,
        delChunkReply, Remote.list, listReply, Except.map] at h
  | some got =>
    have hmore := readLine_append hread more
    cases c with
    | quit => exact absurd rfl hquit
    | stat | putFile | delFile | putChunk | delChunk =>
      simp only [Call.receive, hread, hmore, Option.map_some, Option.getD_some] at h ⊢
      exact map_append h more
    | getFile name =>
      simp only [Call.receive, Remote.getFile, hread, hmore, Option.map_some, Option.getD_some] at h ⊢
      cases hreply : getFileReply (some got.1) with
      | error e => simp [hreply, reportBody] at h
      | ok size =>
        cases size with
        | none => simpa [hreply, reportBody] using h
        | some size =>
          simp only [hreply] at h ⊢
          exact reportBody_append h more
    | getChunk id =>
      simp only [Call.receive, Remote.getChunk, hread, hmore, Option.map_some, Option.getD_some] at h ⊢
      cases hreply : getChunkReply (some got.1) with
      | error e => simp [hreply, reportBody] at h
      | ok size =>
        cases size with
        | none => simpa [hreply, reportBody] using h
        | some size =>
          simp only [hreply] at h ⊢
          exact reportBody_append h more
    | list =>
      simp only [Call.receive, Remote.list, hread, hmore, Option.map_some, Option.getD_some] at h ⊢
      cases hreply : listReply (some got.1) with
      | error e => simp [hreply, Except.map] at h
      | ok count =>
        simp only [hreply] at h ⊢
        cases hlines : readListing count.toNat got.2 with
        | error e => simp [hlines, Except.map] at h
        | ok l =>
          obtain ⟨out, behind⟩ := l
          obtain ⟨rfl, rfl⟩ : Reported.listing out = report ∧ behind = rest := by
            simpa [hlines, Except.map] using h
          rw [readListing_append hlines]
          rfl

/-- What the client takes for an answer when the connection ends first. Farewells are not looked
at. -/
def Question.Lost (q : Question) (a : Except String Reported) : Prop :=
  (∃ e, a = .error e) ∨ q = .call .quit ∧ a = .ok .confirmed

/-- The client makes the answer of the reply and reads it to its end; of a part of the reply it makes
no answer, and leaves nothing of it. -/
structure Question.IsReply (q : Question) (reply : Bytes) (a : Except String Reported) : Prop where
  hears : q.hear reply = (a, [])
  part : ∀ n < reply.length, q.Lost (q.hear (reply.take n)).1 ∧ (q.hear (reply.take n)).2 = []

theorem hear_of_unread (h : readLine b = none) : q.Lost (q.hear b).1 ∧ (q.hear b).2 = [] := by
  cases q with
  | ping => exact ⟨.inl ⟨_, by rw [Question.hear, h]; rfl⟩, by rw [Question.hear, h]; rfl⟩
  | hello => exact ⟨.inl ⟨_, by rw [Question.hear, h]; rfl⟩, by rw [Question.hear, h]; rfl⟩
  | login => exact ⟨.inl ⟨_, by rw [Question.hear, h]; rfl⟩, by rw [Question.hear, h]; rfl⟩
  | auth => exact ⟨.inl ⟨_, by rw [Question.hear, h]; rfl⟩, by rw [Question.hear, h]; rfl⟩
  | call c =>
    cases c with
    | quit =>
      simp only [Question.hear, Call.receive, h]
      exact ⟨.inr ⟨rfl, rfl⟩, rfl⟩
    | stat | putFile | getFile | delFile | putChunk | getChunk | delChunk | list =>
      simp only [Question.hear, Call.receive, h, Call.unread, statReply, putFileReply, okReply,
        Remote.getFile, getFileReply, dataReply, reportBody, delFileReply, putChunkReply,
        Remote.getChunk, getChunkReply, delChunkReply, Remote.list, listReply, Except.map,
        Option.map_none, Option.getD_none, ite_self]
      exact ⟨.inl ⟨_, rfl⟩, trivial⟩

theorem isReply_line {line : Bytes} (h : 10 ∉ line) (hhears : q.hear (sendLine line) = (a, [])) :
    q.IsReply (sendLine line) a where
  hears := hhears
  part _ hn := hear_of_unread (readLine_take_sendLine h hn)

/-- A call that fails on a part of the reply that would have told it something has read it all. -/
theorem unread_take (hquit : c ≠ .quit) {report : Reported} {e : String} {n : ℕ}
    (h : c.receive reply = .ok (report, [])) (hn : n < reply.length)
    (hpart : c.receive (reply.take n) = .error e) : c.unread (reply.take n) = [] := by
  cases hread : readLine (reply.take n) with
  | none => cases c <;> simp [Call.unread, hread]
  | some got =>
    have hwhole := readLine_append hread (reply.drop n)
    rw [List.take_append_drop] at hwhole
    have hmore : got.2 ++ reply.drop n ≠ [] := by
      rw [← List.length_pos_iff, List.length_append, List.length_drop]
      omega
    cases c with
    | quit => exact absurd rfl hquit
    | stat | putFile | delFile | putChunk | delChunk =>
      simp only [Call.receive, hwhole, Option.map_some, Option.getD_some] at h
      exact absurd (rest_of_map h) hmore
    | getFile name =>
      simp only [Call.receive, Remote.getFile, hwhole, Option.map_some, Option.getD_some] at h
      cases hreply : getFileReply (some got.1) with
      | error e => simp [hreply, reportBody] at h
      | ok size => simp [Call.unread, hread, hreply, Except.toOption]
    | getChunk id =>
      simp only [Call.receive, Remote.getChunk, hwhole, Option.map_some, Option.getD_some] at h
      cases hreply : getChunkReply (some got.1) with
      | error e => simp [hreply, reportBody] at h
      | ok size => simp [Call.unread, hread, hreply, Except.toOption]
    | list =>
      simp only [Call.receive, Remote.list, hwhole, Option.map_some, Option.getD_some] at h
      cases hreply : listReply (some got.1) with
      | error e => simp [hreply, Except.map] at h
      | ok count => simp [Call.unread, hread, hreply, Except.toOption]

theorem isReply_receive (hquit : c ≠ .quit) {report : Reported}
    (h : c.receive reply = .ok (report, [])) : (Question.call c).IsReply reply (.ok report) where
  hears := by rw [Question.hear, h]
  part n hn := by
    cases hpart : c.receive (reply.take n) with
    | error e =>
      simp only [Question.hear, hpart]
      exact ⟨.inl ⟨_, rfl⟩, unread_take hquit h hn hpart⟩
    | ok got =>
      obtain ⟨told, rest⟩ := got
      have hwhole := receive_append hquit hpart (reply.drop n)
      rw [List.take_append_drop, h] at hwhole
      obtain ⟨-, hempty⟩ : report = told ∧ [] = rest ++ reply.drop n := by
        simpa only [Except.ok.injEq, Prod.mk.injEq] using hwhole
      have hdrop : (reply.drop n).length = 0 := by
        rw [(List.append_eq_nil_iff.mp hempty.symm).2, List.length_nil]
      rw [List.length_drop] at hdrop
      omega

theorem isReply_err {reason : Bytes} (hplain : IsPlain reason)
    (hlen : (sp kErr reason).length ≤ Config.kMaxLineLen) (hquit : q ≠ .call .quit) :
    ∃ e, q.IsReply (sendLine (sp kErr reason)) (.error e) := by
  have hword : IsWord kErr := by decide
  have hkeys : kErr ≠ kOk ∧ kErr ≠ kNone ∧ kErr ≠ kMeta ∧ kErr ≠ kData ∧ kErr ≠ kCount := by decide
  have hline : IsPlain (sp kErr reason) := isPlain_sp (by decide) hplain
  have hread : readLine (sendLine (sp kErr reason)) = some (sp kErr reason, []) := by
    simpa using readLine_line hline hlen []
  suffices hhears : ∃ e, q.hear (sendLine (sp kErr reason)) = (.error e, []) by
    obtain ⟨e, he⟩ := hhears
    exact ⟨e, isReply_line (fun hc => (hline 10 hc).1 rfl) he⟩
  cases q with
  | ping =>
    have hpong : sp kErr reason ≠ kPong := by
      intro h
      have hsplit := congrArg split h
      have hpong : split kPong = [kPong] := split_word (by decide)
      rw [split_sp hword, hpong] at hsplit
      exact absurd (List.cons.inj hsplit).1 (by decide)
    simp only [Question.hear, hread, Option.map_some, pingReply, if_neg hpong, Except.map]
    exact ⟨_, rfl⟩
  | hello =>
    simp only [Question.hear, hread, Option.map_some, helloReply, split_sp hword]
    cases split reason with
    | nil => exact ⟨_, rfl⟩
    | cons version fs =>
      cases fs with
      | nil => exact ⟨_, by simp only [hkeys, ne_eq, not_false_eq_true, ↓reduceIte]; rfl⟩
      | cons => exact ⟨_, rfl⟩
  | login user password =>
    simp only [Question.hear, hread, Option.map_some, loginReply, okReply, split_sp hword,
      List.head?_cons, Option.some.injEq, hkeys, ↓reduceIte]
    exact ⟨_, rfl⟩
  | auth token =>
    simp only [Question.hear, hread, Option.map_some, authReply, okReply, split_sp hword,
      List.head?_cons, Option.some.injEq, hkeys, ↓reduceIte]
    exact ⟨_, rfl⟩
  | call c =>
    have hdata (missing unexpected badSize : String) :
        dataReply missing unexpected badSize (some (sp kErr reason)) = .error unexpected := by
      simp only [dataReply, split_sp hword, hkeys, ne_eq, not_false_eq_true, ↓reduceIte]
      cases split reason with
      | nil => rfl
      | cons size fs => cases fs <;> rfl
    have hok (missing refused : String) :
        okReply missing refused (some (sp kErr reason)) = .error refused := by
      simp only [okReply, split_sp hword, List.head?_cons, Option.some.injEq, hkeys, ↓reduceIte]
    cases c with
    | quit => exact absurd rfl hquit
    | stat name =>
      have hstat : statReply (some (sp kErr reason)) = .error "unexpected STAT reply" := by
        simp only [statReply, split_sp hword, hkeys, ne_eq, not_false_eq_true, ↓reduceIte]
        split <;> rfl
      simp only [Question.hear, Call.receive, Call.unread, hread, Option.map_some, hstat]
      exact ⟨_, rfl⟩
    | list =>
      have hlist : listReply (some (sp kErr reason)) = .error "unexpected LIST reply" := by
        simp only [listReply, split_sp hword]
        split
        · next hfields =>
          rw [← (List.cons.inj hfields).1, if_pos hkeys.2.2.2.2]
        · rfl
      simp only [Question.hear, Call.receive, Call.unread, Remote.list, hread, Option.map_some, hlist]
      exact ⟨_, rfl⟩
    | delFile name =>
      simp only [Question.hear, Call.receive, Call.unread, delFileReply, hread, Option.map_some,
        split_sp hword, List.head?_cons, hkeys, ↓reduceIte]
      exact ⟨_, rfl⟩
    | getFile name =>
      simp only [Question.hear, Call.receive, Call.unread, Remote.getFile, getFileReply, hread,
        Option.map_some, hdata]
      exact ⟨_, rfl⟩
    | getChunk id =>
      simp only [Question.hear, Call.receive, Call.unread, Remote.getChunk, getChunkReply, hread,
        Option.map_some, hdata]
      exact ⟨_, rfl⟩
    | putFile | putChunk | delChunk =>
      simp only [Question.hear, Call.receive, Call.unread, putFileReply, putChunkReply,
        delChunkReply, hread, Option.map_some, hok]
      exact ⟨_, rfl⟩

end Remote

end PersonalCloud
