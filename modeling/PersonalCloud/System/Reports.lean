import PersonalCloud.Client.Calls
import PersonalCloud.Client.Exchange
import PersonalCloud.System.Serving

/-! Clients against the map the server stands for: what every call reports to its caller, in any
order of calls and whatever else the server is asked to do. -/
namespace PersonalCloud

open Proto Channel Store Remote

/-- Something kept in such a way that a client can be told about it. -/
structure Held.Readable (k : Held) : Prop where
  size : k.content.length ≤ Config.kMaxTransferSize.toNat
  tag : Session.IsTag k.tag
  fits : (metaLine k.content.length k.tag).length ≤ Config.kMaxLineLen
  notBefore : -2 ^ 63 ≤ k.modified
  notAfter : k.modified < 2 ^ 63

namespace Vault

structure Readable (v : Vault) : Prop where
  file : ∀ user name k, v.files user name = some k → k.Readable
  chunk : ∀ id content, v.chunks id = some content →
    content.length ≤ Config.kMaxTransferSize.toNat

theorem readable_empty : (vaultOf ∅).Readable := by
  constructor
  · intro user name k hk
    simp [vaultOf] at hk
  · intro id content hc
    cases hpath : chunkPath id <;> simp [vaultOf, hpath, Disk.content] at hc

def Request.LeavesReadable : Request → Prop
  | .put _ _ kept => kept.Readable
  | .putChunk _ content => content.length ≤ Config.kMaxTransferSize.toNat
  | _ => True

variable {v : Vault}

theorem Readable.step (h : v.Readable) {r : Request} (hr : r.LeavesReadable) :
    (v.step r).Readable := by
  have hset {user name : Bytes} {kept : Option Held} (hkept : ∀ k, kept = some k → k.Readable) :
      (v.setFile user name kept).Readable := by
    refine ⟨fun user' name' k hk => ?_, fun id content hc => h.chunk id content hc⟩
    rw [files_setFile] at hk
    split_ifs at hk
    · exact hkept k hk
    · exact h.file user' name' k hk
  have hsetChunk {id : Bytes} {content : Option Bytes}
      (hcontent : ∀ c, content = some c → c.length ≤ Config.kMaxTransferSize.toNat) :
      (v.setChunk id content).Readable := by
    refine ⟨fun user name k hk => h.file user name k hk, fun id' c hc => ?_⟩
    rw [chunks_setChunk] at hc
    split_ifs at hc
    · exact hcontent c hc
    · exact h.chunk id' c hc
  cases r with
  | put user name kept => exact hset fun k hk => Option.some.inj hk ▸ hr
  | delete user name => exact hset fun k hk => by simp at hk
  | putChunk id content => exact hsetChunk fun c hc => Option.some.inj hc ▸ hr
  | delChunk id => exact hsetChunk fun c hc => by simp at hc
  | get | stat | list | getChunk | other => exact h

end Vault

namespace Remote

/-- The call passes every check of the session it is made on. -/
def Call.Permitted (s : SessionState) : Call → Prop
  | stat name => s.loggedIn = true ∧ wireName name ≠ []
  | putFile name content tag => Session.PutFileAccepted s name content.length ∧ Session.IsTag tag
  | getFile name => s.loggedIn = true ∧ wireName name ≠ []
  | delFile name => s.loggedIn = true ∧ wireName name ≠ []
  | putChunk id content => isSafeChunkId id = true ∧ s.machineTrusted = true ∧
      content.length ≤ Config.kMaxTransferSize.toNat
  | getChunk id => isSafeChunkId id = true ∧ s.machineTrusted = true
  | delChunk id => isSafeChunkId id = true ∧ s.machineTrusted = true
  | list => s.loggedIn = true
  | quit => True

/-- Names lose their leading spaces on the way. -/
def Call.request (user : Bytes) (now : ℤ) : Call → Vault.Request
  | stat name => .stat user (wireName name)
  | putFile name content tag => .put user (wireName name) ⟨content, wireTag tag, now⟩
  | getFile name => .get user (wireName name)
  | delFile name => .delete user (wireName name)
  | putChunk id content => .putChunk id content
  | getChunk id => .getChunk id
  | delChunk id => .delChunk id
  | list => .list user
  | quit => .other

/-- The report of a call that is answered with a result. -/
def reportOf : Vault.Result → Reported
  | .stored => .confirmed
  | .removed => .confirmed
  | .missing => .missing
  | .content c => .body c
  | .info size tag => .info (UInt64.ofNat size) (if tag = ascii "-" then [] else tag)
  | .listing l => .listing (l.filterMap listedOf)

variable {s : SessionState} {env : SessionEnv} {c : Call}

theorem firstLine_wireTag {tag : Bytes} (h : Session.IsTag tag) :
    firstLine (wireTag tag) = wireTag tag := by
  have hno : ∀ x ∈ wireTag tag, x ≠ 10 := by
    unfold wireTag
    split_ifs
    · decide
    · exact fun x hx => (h x hx).2.1
  exact List.takeWhile_eq_self_iff.mpr fun x hx => by simpa using hno x hx

/-- What is asked for once the checks of the dispatcher are passed. -/
theorem asks_sp {cmd : Bytes} (hword : IsWord cmd)
    (hfile : Session.isFileCommand cmd → s.loggedIn = true)
    (hchunk : Session.isChunkCommand cmd → s.machineTrusted = true) (rest input : Bytes) (now : ℤ) :
    Session.asks s now (sp cmd rest) input =
      (Session.asksCommand s.user now cmd (sp cmd rest) input).getD .other := by
  have hlogin : ¬ (Session.isFileCommand cmd ∧ s.loggedIn = false) := by
    rintro ⟨hcmd, hno⟩
    rw [hfile hcmd] at hno
    contradiction
  have htrust : ¬ (Session.isChunkCommand cmd ∧ s.machineTrusted = false) := by
    rintro ⟨hcmd, hno⟩
    rw [hchunk hcmd] at hno
    contradiction
  rw [Session.asks, Session.asksLine, split_sp hword]
  simp only [if_neg hlogin, if_neg htrust]

theorem asks_line (h : c.Permitted s) (now : ℤ) (more : Bytes) :
    Session.asks s now c.line (c.body ++ more) = c.request s.user now := by
  cases c with
  | stat name =>
    rw [Call.line, statLine, asks_sp (by decide) (fun _ => h.1) fun hc => absurd hc (by decide)]
    simp [Session.asksCommand, splitN_two (show IsWord kStat by decide), h.2, Session.argument,
      Call.request]
  | putFile name content tag =>
    obtain ⟨⟨hlogin, hsize, hpath⟩, htag⟩ := h
    obtain ⟨final, hfinal⟩ := Option.isSome_iff_exists.mp hpath
    have hfields : splitN (putFileLine name tag content.length) 4 =
        [kPutFile, Decimal.text content.length, wireTag tag, wireName name] := by
      rw [Session.splitN_putFileLine name htag, if_neg (Session.wireName_ne_nil_of_filePath hfinal)]
    have hne : kPutFile ≠ kStat := by decide
    have hnat : (UInt64.ofNat content.length).toNat = content.length :=
      UInt64.toNat_ofNat_of_lt' (hsize.trans_lt Config.kMaxTransferSize.toNat_lt)
    rw [Call.line, putFileLine, asks_sp (by decide) (fun _ => hlogin) fun hc => absurd hc (by decide),
      ← putFileLine]
    simp [Session.asksCommand, hne, hfields, Session.asksPutFile, parseSize_text hsize, hfinal, hnat,
      Call.body, Call.request, firstLine_wireTag htag]
  | getFile name =>
    have hne : kGetFile ≠ kStat ∧ kGetFile ≠ kPutFile := by decide
    rw [Call.line, getFileLine, asks_sp (by decide) (fun _ => h.1) fun hc => absurd hc (by decide)]
    simp [Session.asksCommand, hne, splitN_two (show IsWord kGetFile by decide), h.2,
      Session.argument, Call.request]
  | delFile name =>
    have hne : kDelFile ≠ kStat ∧ kDelFile ≠ kPutFile ∧ kDelFile ≠ kGetFile := by decide
    rw [Call.line, delFileLine, asks_sp (by decide) (fun _ => h.1) fun hc => absurd hc (by decide)]
    simp [Session.asksCommand, hne, splitN_two (show IsWord kDelFile by decide), h.2,
      Session.argument, Call.request]
  | putChunk id content =>
    obtain ⟨hid, htrust, hsize⟩ := h
    have hne : kPutChunk ≠ kStat ∧ kPutChunk ≠ kPutFile ∧ kPutChunk ≠ kGetFile ∧
        kPutChunk ≠ kDelFile := by decide
    have hnat : (UInt64.ofNat content.length).toNat = content.length :=
      UInt64.toNat_ofNat_of_lt' (hsize.trans_lt Config.kMaxTransferSize.toNat_lt)
    rw [Call.line, putChunkLine, asks_sp (by decide) (fun hc => absurd hc (by decide))
      fun _ => htrust]
    simp [Session.asksCommand, hne, split_sp (show IsWord kPutChunk by decide),
      split_sp (isWord_of_isSafeChunkId hid), split_word (isWord_text _), Session.asksPutChunk,
      parseSize_text hsize, chunkPath_of_safe hid, hnat, Call.body, Call.request]
  | getChunk id =>
    have hne : kGetChunk ≠ kStat ∧ kGetChunk ≠ kPutFile ∧ kGetChunk ≠ kGetFile ∧
        kGetChunk ≠ kDelFile ∧ kGetChunk ≠ kPutChunk := by decide
    rw [Call.line, getChunkLine, asks_sp (by decide) (fun hc => absurd hc (by decide)) fun _ => h.2]
    simp [Session.asksCommand, hne, split_sp (show IsWord kGetChunk by decide),
      split_word (isWord_of_isSafeChunkId h.1), Session.argument, Call.request]
  | delChunk id =>
    have hne : kDelChunk ≠ kStat ∧ kDelChunk ≠ kPutFile ∧ kDelChunk ≠ kGetFile ∧
        kDelChunk ≠ kDelFile ∧ kDelChunk ≠ kPutChunk ∧ kDelChunk ≠ kGetChunk := by decide
    rw [Call.line, delChunkLine, asks_sp (by decide) (fun hc => absurd hc (by decide)) fun _ => h.2]
    simp [Session.asksCommand, hne, split_sp (show IsWord kDelChunk by decide),
      split_word (isWord_of_isSafeChunkId h.1), Session.argument, chunkPath_of_safe h.1,
      Call.request]
  | list =>
    have hlogin : s.loggedIn = true := h
    have hsplit : split kList = [kList] := split_word (by decide)
    have hfile : ¬ Session.isChunkCommand kList := by decide
    have hne : kList ≠ kStat ∧ kList ≠ kPutFile ∧ kList ≠ kGetFile ∧ kList ≠ kDelFile ∧
        kList ≠ kPutChunk ∧ kList ≠ kGetChunk ∧ kList ≠ kDelChunk := by decide
    simp [Call.line, Session.asks, Session.asksLine, hsplit, hlogin, hfile, Session.asksCommand, hne,
      Call.request]
  | quit => rfl

variable {v : Vault} {user : Bytes} {now : ℤ} {res : Vault.Result}

theorem readLine_metaLine {k : Held} (hk : k.Readable) (more : Bytes) :
    readLine (sendLine (metaLine k.content.length k.tag) ++ more) =
      some (metaLine k.content.length k.tag, more) := by
  have hplain : IsPlain (wireTag k.tag) := by
    unfold wireTag
    split_ifs
    · decide
    · exact fun x hx => (hk.tag x hx).2
  exact readLine_line (isPlain_sp (by decide) (isPlain_sp (isPlain_text _) hplain)) hk.fits more

theorem length_signedText_le {z : ℤ} (hlow : -2 ^ 63 ≤ z) (hhigh : z < 2 ^ 63) :
    (Decimal.signedText z).length ≤ 20 := by
  cases z with
  | ofNat n => exact Decimal.text_length_le (by omega) (by simp at hhigh; omega)
  | negSucc n =>
    have hdigits : (Decimal.text (n + 1)).length ≤ 19 :=
      Decimal.text_length_le (by omega) (by omega)
    simp only [Decimal.signedText, List.length_cons]
    omega

theorem length_le_of_isSafeName {name : Bytes} (h : isSafeName name = true) :
    name.length ≤ 255 := by
  unfold isSafeName at h
  split_ifs at h with hlen
  exact not_lt.mp (not_or.mp hlen).2

theorem legible_entry {name : Bytes} {k : Held} (hname : isSafeName name = true)
    (hk : k.Readable) : Legible (k.entry name) where
  plain := isPlain_of_isSafeName hname
  fits := by
    have hsize : (Decimal.text k.content.length).length ≤ 20 := by
      have hle := hk.size
      rw [Config.kMaxTransferSize_toNat] at hle
      exact Decimal.text_length_le (by omega) (by omega)
    have hmodified := length_signedText_le hk.notBefore hk.notAfter
    have hlen := length_le_of_isSafeName hname
    simp only [Session.listLine, Held.entry, sp, List.length_append, List.length_cons,
      Config.kMaxLineLen]
    omega
  size := hk.size
  notBefore := hk.notBefore
  notAfter := hk.notAfter

/-- On the answer the map calls for a call reports it to its caller and stops reading where it
ends. -/
theorem receive_replyTo (hv : v.Readable) (hnames : ∀ name k, v.files user name = some k →
      isSafeName name = true) (hcount : ∀ l, c = .list → res = .listing l → l.length ≤ 1000000)
    (hquit : c ≠ .quit) (hres : v.Answers (c.request user now) res) (more : Bytes) :
    c.receive (Session.replyTo res ++ more) = .ok (reportOf res, more) := by
  cases c with
  | stat name =>
    rw [Call.request, Vault.answers_stat] at hres
    subst hres
    cases hkept : v.files user (wireName name) with
    | none =>
      simp [Call.receive, Session.replyTo, readLine_none, statReply, split_none, Except.map, reportOf]
    | some k =>
      have hk : k.Readable := hv.file _ _ _ hkept
      have hread := readLine_metaLine hk more
      have hreply := statReply_metaLine hk.tag hk.size
      simp only [Call.receive, Option.elim_some, Session.replyTo]
      rw [metaLine, wireTag] at hread hreply
      simp only [hread, Option.map_some, hreply]
      rfl
  | putFile name content tag =>
    obtain rfl : res = .stored := hres
    simp [Call.receive, Session.replyTo, readLine_ok, putFileReply, okReply_confirmed, reportOf,
      Except.map]
  | getFile name =>
    rw [Call.request, Vault.answers_get] at hres
    subst hres
    cases hkept : v.files user (wireName name) with
    | none => simp [Call.receive, Session.replyTo, readLine_none, getFile_none, reportBody, reportOf]
    | some k =>
      have hk : k.Readable := hv.file _ _ _ hkept
      simp only [Call.receive, Option.elim_some, Session.replyTo, readLine_body hk.size,
        getFile_data hk.size, Option.map_some, Option.getD_some, reportBody, List.drop_left, reportOf]
  | delFile name =>
    rw [Call.request, Vault.answers_delete] at hres
    subst hres
    cases hkept : v.files user (wireName name) with
    | none =>
      simp [Call.receive, Session.replyTo, readLine_none, delFileReply, split_none, Except.map,
        reportOf]
    | some k =>
      have hne : kOk ≠ kNone := by decide
      simp [Call.receive, Session.replyTo, readLine_ok, delFileReply, split_ok, hne, Except.map,
        reportOf]
  | putChunk id content =>
    obtain rfl : res = .stored := hres
    simp [Call.receive, Session.replyTo, readLine_ok, putChunkReply, okReply_confirmed, reportOf,
      Except.map]
  | getChunk id =>
    rw [Call.request, Vault.answers_getChunk] at hres
    subst hres
    cases hkept : v.chunks id with
    | none =>
      simp [Call.receive, Session.replyTo, readLine_none, getChunk_none, reportBody, reportOf]
    | some content =>
      have hsize := hv.chunk _ _ hkept
      simp only [Call.receive, Option.elim_some, Session.replyTo, readLine_body hsize,
        getChunk_data hsize, Option.map_some, Option.getD_some, reportBody, List.drop_left, reportOf]
  | delChunk id =>
    obtain rfl : res = .removed := hres
    simp [Call.receive, Session.replyTo, readLine_ok, delChunkReply, okReply_confirmed, reportOf,
      Except.map]
  | list =>
    obtain ⟨l, rfl, hl⟩ := hres
    have hlegible : ∀ e ∈ l, Legible e := by
      intro e he
      obtain ⟨k, hkept, hentry⟩ := (hl.2 e).mp he
      rw [hentry]
      exact legible_entry (hnames _ _ hkept) (hv.file _ _ _ hkept)
    simp only [Call.receive, Session.replyTo, list_reply (hcount l rfl rfl) hlegible]
    rfl
  | quit => exact absurd rfl hquit

/-- Something done to the server: a call of a client on its connection, or anything else. -/
inductive Move where
  | call (conn : ℕ) (env : SessionEnv) (c : Call)
  | other (e : Service.Event)

/-- What reaches the server: of a call, the line and what is behind it. -/
def Move.event : Move → Service.Event
  | .call conn env c =>
      match readLine c.bytes with
      | none => .command conn env [] []
      | some (line, input) => .command conn env line input
  | .other e => e

end Remote

namespace Service

open Machine Remote

def moveStep (s : Service) (m : Move) : Service := step s m.event

def replyTo (s : Service) (conn : ℕ) (env : SessionEnv) (c : Call) : Bytes :=
  match s.answer (Move.call conn env c).event with
  | .command r => r.reply
  | _ => []

/-- Storage is sound, a call passes the checks of its session on a line the server reads, and
whatever is put into the store can be read back. -/
def Fair (s : Service) : Move → Prop
  | .call conn env c => env.Sound ∧ (-2 ^ 63 ≤ env.now ∧ env.now < 2 ^ 63) ∧ c.WellFormed ∧
      c.Permitted (s.sessions conn) ∧ c.line.length ≤ Config.kMaxLineLen ∧
      (c = .list → (listFiles s.disk (s.sessions conn).user).length ≤ 1000000)
  | .other e => e.env.Sound ∧ (asks s e).LeavesReadable

/-- The move changes the map as it asks to; a call reports the answer the map calls for, and leaves
unread exactly what follows its reply. -/
def Told (s : Service) : Move → Prop
  | .call conn env c =>
      vaultOf (moveStep s (.call conn env c)).disk =
        (vaultOf s.disk).step (c.request (s.sessions conn).user env.now) ∧
      (c = .quit ∨ ∃ res,
        (vaultOf s.disk).Answers (c.request (s.sessions conn).user env.now) res ∧
        ∀ more, c.receive (s.replyTo conn env c ++ more) = .ok (reportOf res, more))
  | .other e => vaultOf (moveStep s (.other e)).disk = (vaultOf s.disk).step (asks s e)

variable {s : Service} {conn : ℕ} {env : SessionEnv} {c : Call}

theorem event_call (hc : c.WellFormed) (hlen : c.line.length ≤ Config.kMaxLineLen) :
    (Move.call conn env c).event = .command conn env c.line c.body := by
  rw [Move.event, Call.bytes, readLine_line (isPlain_line hc) hlen]

theorem asks_call (hc : c.WellFormed) (hlen : c.line.length ≤ Config.kMaxLineLen)
    (hp : c.Permitted (s.sessions conn)) : asks s (Move.call conn env c).event =
      c.request (s.sessions conn).user env.now := by
  rw [event_call hc hlen, asks, ← List.append_nil c.body]
  exact asks_line hp env.now []

theorem wireTag_wireTag (tag : Bytes) : wireTag (wireTag tag) = wireTag tag := by
  by_cases hempty : tag = []
  · subst hempty
    rfl
  · have hsame : wireTag tag = tag := if_neg (by simpa using hempty)
    rw [hsame, hsame]

theorem isTag_wireTag {tag : Bytes} (h : Session.IsTag tag) : Session.IsTag (wireTag tag) := by
  unfold wireTag
  split_ifs
  · exact (by decide : ∀ x ∈ ascii "-", x ≠ 32 ∧ x ≠ 10 ∧ x ≠ 13)
  · exact h

/-- The `META` line of an upload is shorter than the line of the upload. -/
theorem leavesReadable_request (hlen : c.line.length ≤ Config.kMaxLineLen) {session : SessionState}
    (hp : c.Permitted session) (hnow : -2 ^ 63 ≤ env.now ∧ env.now < 2 ^ 63) (user : Bytes) :
    (c.request user env.now).LeavesReadable := by
  cases c with
  | putFile name content tag =>
    refine ⟨hp.1.2.1, isTag_wireTag hp.2, ?_, hnow.1, hnow.2⟩
    have hcmd : kMeta.length < kPutFile.length := by decide
    simp only [Call.line, putFileLine, metaLine, wireTag_wireTag, sp, List.length_append,
      List.length_cons] at hlen ⊢
    omega
  | putChunk id content => exact hp.2.2
  | stat | getFile | delFile | getChunk | delChunk | list | quit => trivial

theorem isSafeName_of_vaultOf {d : Disk} {user name : Bytes} {k : Held}
    (h : (vaultOf d).files user name = some k) : isSafeName name = true := by
  by_contra hname
  have hpath : filePath user name = none := by
    unfold filePath
    cases accountDir user <;> simp [hname]
  rw [Vault.vaultOf_files_none hpath] at h
  contradiction

theorem told_of_fair {m : Move} (hv : (vaultOf s.disk).Readable) (h : Fair s m) : Told s m := by
  cases m with
  | other e =>
    have hserves := (serves_step s e h.1).vault
    rw [← step_disk] at hserves
    exact hserves
  | call conn env c =>
    obtain ⟨henv, -, hc, hp, hlen, hcount⟩ := h
    have hevent : (Move.call conn env c).event = .command conn env c.line c.body :=
      event_call hc hlen
    have hserves := serves_step s (Move.call conn env c).event (by rw [hevent]; exact henv)
    rw [asks_call hc hlen hp] at hserves
    refine ⟨?_, ?_⟩
    · rw [moveStep, step_disk]
      exact hserves.vault
    by_cases hquit : c = .quit
    · exact .inl hquit
    obtain ⟨res, hres, hshows⟩ := hserves.answer.resolve_left (by cases c <;> simp_all [Call.request])
    refine .inr ⟨res, hres, fun more => ?_⟩
    have hreply : s.replyTo conn env c = Session.replyTo res := by
      rw [hevent] at hshows
      rw [replyTo, hevent]
      exact hshows
    rw [hreply]
    refine receive_replyTo hv (fun name k => isSafeName_of_vaultOf) ?_ hquit hres more
    rintro l rfl rfl
    obtain ⟨l', hl', hlisting⟩ := hres
    obtain rfl : l = l' := Vault.Result.listing.inj hl'
    rw [hlisting.unique (Vault.listing_listFiles s.disk (s.sessions conn).user)]
    exact hcount rfl

theorem readable_moveStep {m : Move} (hv : (vaultOf s.disk).Readable) (h : Fair s m) :
    (vaultOf (moveStep s m).disk).Readable := by
  have htold := told_of_fair hv h
  cases m with
  | other e =>
    rw [show vaultOf _ = _ from htold]
    exact hv.step h.2
  | call conn env c =>
    obtain ⟨-, hnow, -, hp, hlen, -⟩ := h
    rw [htold.1]
    exact hv.step (leavesReadable_request hlen hp hnow _)

/-- However the calls of any number of clients, browsers and whatever else reaches the server
follow each other, every call reports what the map holds at that moment. The name asked for is the
one that arrives (`wireName`), and the listing is what arrives of it (`listedOf`): leading spaces
are lost on the way. -/
theorem calls_told {s : Service} {ms : List Move} (hv : (vaultOf s.disk).Readable)
    (h : Along moveStep Fair s ms) : Along moveStep Told s ms :=
  along_imp (fun _ _ => readable_moveStep) (fun _ _ => told_of_fair) hv h

def openEnv : SessionEnv := { calmEnv with verify := fun _ _ => true }

def sampleMoves : List Move :=
  [.other (.command 0 openEnv (ascii "LOGIN ann pw") []),
    .call 0 openEnv (.putFile (ascii "a b") (ascii "hi") []),
    .other (.command 1 openEnv (ascii "LOGIN ann pw") []), .call 1 openEnv .list]

theorem fair_sampleMoves : Along moveStep Fair (start ∅ 0) sampleMoves := by
  have hsound : openEnv.Sound := ⟨rfl, rfl, rfl, rfl, rfl, rfl, rfl⟩
  have hnow : -2 ^ 63 ≤ openEnv.now ∧ openEnv.now < 2 ^ 63 := by decide
  refine ⟨⟨hsound, trivial⟩, ⟨hsound, hnow, ?_, ⟨?_, ?_⟩, ?_, by simp⟩, ⟨hsound, trivial⟩,
    ⟨hsound, hnow, trivial, ?_, ?_, fun _ => ?_⟩, trivial⟩
  · exact ⟨by decide, by simp [Session.IsTag]⟩
  · exact ⟨by decide +kernel, by decide, by decide +kernel⟩
  · simp [Session.IsTag]
  · decide
  · change SessionState.loggedIn _ = true
    decide +kernel
  · decide
  · decide +kernel

theorem calls_told_sample :
    let s := run moveStep (start ∅ 0) (sampleMoves.take 3)
    Call.list.receive (s.replyTo 1 openEnv .list ++ ascii "OK") =
      .ok (.listing [⟨ascii "a b", 2, 0⟩], ascii "OK") := by
  intro s
  obtain ⟨-, -, -, ⟨-, hlist⟩, -⟩ := calls_told Vault.readable_empty fair_sampleMoves
  obtain ⟨res, ⟨l, rfl, hl⟩, hreport⟩ := hlist.resolve_left (by simp)
  have hlisting := Vault.listing_listFiles s.disk (ascii "ann")
  rw [hl.unique hlisting] at hreport
  exact (hreport (ascii "OK")).trans (by decide +kernel)

end Service

end PersonalCloud
