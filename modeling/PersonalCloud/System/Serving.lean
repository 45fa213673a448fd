import PersonalCloud.System.Isolation
import PersonalCloud.System.Vault

/-! Both front ends of the server against the map its store stands for: what each command line and
each web request asks of the map, and that it is answered and carried out as the map says. -/
namespace PersonalCloud

open Proto Channel Store Http Transfer

/-- What is done to the disk and what is shown for it, in terms of a request to the map. -/
structure Serves (d : Disk) (r : Vault.Request) (steps : List DiskStep)
    (shows : Vault.Result → Prop) : Prop where
  vault : vaultOf (d.run steps) = (vaultOf d).step r
  answer : r = .other ∨ ∃ res, (vaultOf d).Answers r res ∧ shows res

namespace Vault

variable {d : Disk} {user name : Bytes}

theorem fileInfo_vaultOf (d : Disk) (user name : Bytes) : fileInfo d user name =
    ((vaultOf d).files user name).map fun k => (k.content.length, k.tag) := by
  unfold fileInfo
  split
  · next hpath => rw [vaultOf_files_none hpath, Option.map_none]
  · next p hpath =>
    rw [vaultOf_files hpath, Disk.content]
    cases d.lookup p <;> rfl

theorem content_vaultOf (d : Disk) (user name : Bytes) :
    (filePath user name).bind d.content = ((vaultOf d).files user name).map Held.content := by
  cases hpath : filePath user name with
  | none => rw [vaultOf_files_none hpath, Option.bind_none, Option.map_none]
  | some p =>
    rw [vaultOf_files hpath, Option.bind_some, Disk.content, Option.map_map]
    rfl

end Vault

theorem serves_other {d : Disk} {steps : List DiskStep} {shows : Vault.Result → Prop}
    (h : vaultOf (d.run steps) = vaultOf d) : Serves d .other steps shows := ⟨h, .inl rfl⟩

namespace Session

def replyTo : Vault.Result → Bytes
  | .stored => sendLine kOk
  | .removed => sendLine kOk
  | .missing => sendLine kNone
  | .content c => sendLine (sp kData (Decimal.text c.length)) ++ c
  | .info size tag =>
      sendLine (sp kMeta (sp (Decimal.text size) (if tag.isEmpty then ascii "-" else tag)))
  | .listing l => sendLine (sp kCount (Decimal.text l.length)) ++
      l.flatMap fun e => sendLine (listLine e)

def argument (f : List Bytes) : Option Bytes :=
  match f with
  | [_, arg] => some arg
  | _ => none

theorem argument_eq_none {f : List Bytes} (h : ∀ cmd arg, f = [cmd, arg] → False) :
    argument f = none := by
  unfold argument
  split
  · exact absurd rfl (h _ _)
  · rfl

/-- An upload whose line is accepted and whose body arrives whole. -/
def asksPutFile (user : Bytes) (now : ℤ) (f : List Bytes) (input : Bytes) : Option Vault.Request :=
  match f with
  | [_, size, tag, name] =>
      match parseSize size Config.kMaxTransferSize with
      | none => none
      | some size =>
          if (filePath user name).isSome ∧ size.toNat ≤ input.length then
            some (.put user name ⟨input.take size.toNat, firstLine tag, now⟩)
          else none
  | _ => none

def asksPutChunk (f : List Bytes) (input : Bytes) : Option Vault.Request :=
  match f with
  | [_, id, size] =>
      match parseSize size Config.kMaxTransferSize with
      | none => none
      | some size =>
          if (chunkPath id).isSome ∧ size.toNat ≤ input.length then
            some (.putChunk id (input.take size.toNat))
          else none
  | _ => none

/-- What a command asks for once its connection has proved enough. -/
def asksCommand (user : Bytes) (now : ℤ) (cmd line input : Bytes) : Option Vault.Request :=
  if cmd = kStat then (argument (splitN line 2)).map (.stat user)
  else if cmd = kPutFile then asksPutFile user now (splitN line 4) input
  else if cmd = kGetFile then (argument (splitN line 2)).map (.get user)
  else if cmd = kDelFile then (argument (splitN line 2)).map (.delete user)
  else if cmd = kPutChunk then asksPutChunk (split line) input
  else if cmd = kGetChunk then (argument (split line)).map .getChunk
  else if cmd = kDelChunk then
    (argument (split line)).bind fun id => (chunkPath id).map fun _ => .delChunk id
  else if cmd = kList then some (.list user)
  else none

def asksLine (s : SessionState) (now : ℤ) (line input : Bytes) : Option Vault.Request :=
  match split line with
  | [] => none
  | cmd :: _ =>
      if isFileCommand cmd ∧ s.loggedIn = false then none
      else if isChunkCommand cmd ∧ s.machineTrusted = false then none
      else asksCommand s.user now cmd line input

/-- What a line asks of the map; a line that is refused, or whose body is cut short, asks for
nothing. -/
def asks (s : SessionState) (now : ℤ) (line input : Bytes) : Vault.Request :=
  (asksLine s now line input).getD .other

variable {env : SessionEnv} {s : SessionState} {line input : Bytes}

/-- A handler that serves a request, seen from its reply. -/
def Carries (env : SessionEnv) (r : Option Vault.Request) (h : Handled) : Prop :=
  Serves env.disk (r.getD .other) h.steps fun res => h.reply = replyTo res

theorem carries_idle {h : Handled} (hsteps : h.steps = []) : Carries env none h :=
  serves_other (by rw [hsteps]; rfl)

theorem carries_read {h : Handled} {r : Vault.Request} (res : Vault.Result) (hsteps : h.steps = [])
    (hread : (vaultOf env.disk).step r = vaultOf env.disk)
    (hres : (vaultOf env.disk).Answers r res) (hreply : h.reply = replyTo res) :
    Carries env (some r) h := by
  refine ⟨?_, .inr ⟨res, hres, hreply⟩⟩
  rw [hsteps, Option.getD_some, hread]
  rfl

theorem doStat_carries : Carries env ((argument (splitN line 2)).map (.stat s.user))
    (doStat env s line input) := by
  unfold doStat
  split
  · next cmd name hline =>
    rw [hline]
    rw [Vault.fileInfo_vaultOf]
    cases hkept : (vaultOf env.disk).files s.user name with
    | none => exact carries_read .missing rfl rfl (by simp [hkept]) rfl
    | some k => exact carries_read (.info k.content.length k.tag) rfl rfl (by simp [hkept]) rfl
  · next hline =>
    rw [argument_eq_none hline]
    exact carries_idle rfl

theorem doGetFile_carries (henv : env.Sound) :
    Carries env ((argument (splitN line 2)).map (.get s.user)) (doGetFile env s line input) := by
  unfold doGetFile
  split
  · next cmd name hline =>
    rw [hline]
    rw [Vault.content_vaultOf]
    cases hkept : (vaultOf env.disk).files s.user name with
    | none => exact carries_read .missing rfl rfl (by simp [hkept]) rfl
    | some k =>
      refine carries_read (.content k.content) rfl rfl (by simp [hkept]) ?_
      simp [sendFile, henv.reads, replyTo]
  · next hline =>
    rw [argument_eq_none hline]
    exact carries_idle rfl

theorem doDelFile_carries (henv : env.Sound) :
    Carries env ((argument (splitN line 2)).map (.delete s.user)) (doDelFile env s line input) := by
  unfold doDelFile
  split
  · next cmd name hline =>
    rw [hline]
    obtain ⟨hvault, hremoved⟩ := @Vault.vaultOf_run_removeFile env.disk s.user name env.removes
      henv.removesFile henv.removesSidecar
    refine ⟨hvault, .inr ?_⟩
    simp only [hremoved, argument, Option.map_some, Option.getD_some, Vault.answers_delete]
    cases (vaultOf env.disk).files s.user name with
    | none => exact ⟨.missing, rfl, rfl⟩
    | some k => exact ⟨.removed, rfl, rfl⟩
  · next hline =>
    rw [argument_eq_none hline]
    exact carries_idle rfl

theorem doList_carries : Carries env (some (.list s.user)) (doList env s input) :=
  carries_read (.listing _) rfl rfl ⟨_, rfl, Vault.listing_listFiles env.disk s.user⟩ rfl

theorem storeBody_sound (henv : env.Sound) (s : SessionState) (input : Bytes) (final : Path)
    (size : ℕ) (after : List DiskStep) :
    (size ≤ input.length ∧ storeBody env s final size after input = { answer s kOk (input.drop size)
      with steps := [.write (tempPath env.random) ⟨input.take size, env.now⟩,
        .rename (tempPath env.random) final] ++ after }) ∨
    (input.length < size ∧
      ∀ st ∈ (storeBody env s final size after input).steps, st.OnTemp env.random) := by
  by_cases hsize : size ≤ input.length
  · refine .inl ⟨hsize, ?_⟩
    simp [storeBody, receiveToFile, henv.receives, henv.renames, hsize]
  · refine .inr ⟨not_le.mp hsize, ?_⟩
    rcases storeBody_cases env s final size after input with ⟨hle, -⟩ | ⟨-, htemp⟩
    · exact absurd hle hsize
    · exact htemp

theorem doPutFile_carries (henv : env.Sound) :
    Carries env (asksPutFile s.user env.now (splitN line 4) input) (doPutFile env s line input) := by
  unfold doPutFile
  split
  · next cmd size tag name hline =>
    rw [hline]
    simp only [asksPutFile]
    cases parseSize size Config.kMaxTransferSize with
    | none => exact carries_idle rfl
    | some size =>
      cases hpath : filePath s.user name with
      | none => exact carries_idle rfl
      | some final =>
        simp only [Option.isSome_some, true_and]
        rcases storeBody_sound henv s input final size.toNat
          (writeTag env.now env.tag s.user name tag) with ⟨hle, hstored⟩ | ⟨hlt, htemp⟩
        · rw [if_pos hle, hstored, henv.tag]
          exact ⟨Vault.vaultOf_run_upload hpath, .inr ⟨.stored, rfl, rfl⟩⟩
        · rw [if_neg (not_le.mpr hlt)]
          exact serves_other (Vault.vaultOf_run_temp htemp)
  · next hline =>
    have hnone : asksPutFile s.user env.now (splitN line 4) input = none := by
      unfold asksPutFile
      split
      · next heq => exact absurd heq (hline _ _ _ _)
      · rfl
    rw [hnone]
    exact carries_idle rfl

theorem doPutChunk_carries (henv : env.Sound) (f : List Bytes) :
    Carries env (asksPutChunk f input) (doPutChunk env s f input) := by
  unfold doPutChunk
  split
  · next cmd id size =>
    simp only [asksPutChunk]
    cases hpath : chunkPath id with
    | none =>
      cases parseSize size Config.kMaxTransferSize with
      | none => exact carries_idle rfl
      | some size => exact carries_idle rfl
    | some final =>
      cases parseSize size Config.kMaxTransferSize with
      | none => exact carries_idle rfl
      | some size =>
        simp only [Option.isSome_some, true_and]
        rcases storeBody_sound henv s input final size.toNat [] with
          ⟨hle, hstored⟩ | ⟨hlt, htemp⟩
        · rw [if_pos hle, hstored, List.append_nil]
          exact ⟨Vault.vaultOf_run_chunk hpath, .inr ⟨.stored, rfl, rfl⟩⟩
        · rw [if_neg (not_le.mpr hlt)]
          exact serves_other (Vault.vaultOf_run_temp htemp)
  · next hf =>
    have hnone : asksPutChunk f input = none := by
      unfold asksPutChunk
      split
      · exact absurd rfl (hf _ _ _)
      · rfl
    rw [hnone]
    exact carries_idle rfl

theorem doGetChunk_carries (henv : env.Sound) (f : List Bytes) :
    Carries env ((argument f).map .getChunk) (doGetChunk env s f input) := by
  unfold doGetChunk
  split
  · next cmd id =>
    cases hchunk : (vaultOf env.disk).chunks id with
    | none =>
      have hnone : (chunkPath id).bind env.disk.content = none := hchunk
      rw [hnone]
      exact carries_read .missing rfl rfl (by simp [hchunk]) rfl
    | some content =>
      have hsome : (chunkPath id).bind env.disk.content = some content := hchunk
      rw [hsome]
      refine carries_read (.content content) rfl rfl (by simp [hchunk]) ?_
      simp [sendFile, henv.reads, replyTo]
  · next hf =>
    rw [argument_eq_none hf]
    exact carries_idle rfl

theorem doDelChunk_carries (henv : env.Sound) (f : List Bytes) :
    Carries env ((argument f).bind fun id => (chunkPath id).map fun _ => .delChunk id)
      (doDelChunk env s f input) := by
  unfold doDelChunk
  split
  · next cmd id =>
    simp only [argument, Option.bind_some]
    cases hpath : chunkPath id with
    | none => exact carries_idle rfl
    | some p =>
      simp only [henv.removesFile, ↓reduceIte]
      exact ⟨Vault.vaultOf_run_delChunk hpath, .inr ⟨.removed, rfl, rfl⟩⟩
  · next hf =>
    rw [argument_eq_none hf]
    exact carries_idle rfl

/-- The commands that are answered before anything is proved, and those that prove it. -/
def isOpenCommand (cmd : Bytes) : Prop :=
  cmd = kHello ∨ cmd = kPing ∨ cmd = kQuit ∨ cmd = kLogin ∨ cmd = kAuth

instance : DecidablePred isOpenCommand := fun cmd =>
  inferInstanceAs (Decidable (cmd = kHello ∨ cmd = kPing ∨ cmd = kQuit ∨ cmd = kLogin ∨
    cmd = kAuth))

theorem asksLine_of_open {cmd : Bytes} {fs : List Bytes} (hline : split line = cmd :: fs)
    (h : isOpenCommand cmd) (now : ℤ) : asksLine s now line input = none := by
  have hkeys : ∀ c ∈ [kHello, kPing, kQuit, kLogin, kAuth], ∀ k ∈ [kStat, kPutFile, kGetFile,
      kDelFile, kPutChunk, kGetChunk, kDelChunk, kList], c ≠ k := by decide
  have hcmd : ∀ k ∈ [kStat, kPutFile, kGetFile, kDelFile, kPutChunk, kGetChunk, kDelChunk, kList],
      cmd ≠ k := hkeys cmd (by simpa [isOpenCommand] using h)
  simp only [List.mem_cons, List.not_mem_nil, or_false, ne_eq, forall_eq_or_imp, forall_eq] at hcmd
  simp only [asksLine, hline, isFileCommand, isChunkCommand, asksCommand, hcmd, or_self, false_and,
    ↓reduceIte]

theorem handle_open_steps {cmd : Bytes} {fs : List Bytes} (hline : split line = cmd :: fs)
    (h : isOpenCommand cmd) : (handle env s line input).steps = [] := by
  have hkeys : kPing ≠ kHello ∧ kQuit ≠ kHello ∧ kQuit ≠ kPing ∧ kLogin ≠ kHello ∧
      kLogin ≠ kPing ∧ kLogin ≠ kQuit ∧ kAuth ≠ kHello ∧ kAuth ≠ kPing ∧ kAuth ≠ kQuit ∧
      kAuth ≠ kLogin := by decide
  unfold handle
  simp only [hline]
  rcases h with rfl | rfl | rfl | rfl | rfl
  · rfl
  · rw [if_neg hkeys.1, if_pos rfl]
    rfl
  · rw [if_neg hkeys.2.1, if_neg hkeys.2.2.1, if_pos rfl]
    rfl
  · simp only [hkeys, ↓reduceIte]
    exact doLogin_steps _ _ _ _
  · simp only [hkeys, ↓reduceIte]
    exact doAuth_steps _ _ _ _

theorem carries_ite {c : Prop} [Decidable c] {r r' : Option Vault.Request} {h h' : Handled}
    (ht : c → Carries env r h) (he : ¬ c → Carries env r' h') :
    Carries env (if c then r else r') (if c then h else h') := by
  split_ifs with hc
  · exact ht hc
  · exact he hc

theorem carries_skip {c : Prop} [Decidable c] {r : Option Vault.Request} {h h' : Handled}
    (hc : ¬ c) (he : Carries env r h') : Carries env r (if c then h else h') := by
  rwa [if_neg hc]

theorem handle_serves (henv : env.Sound) (s : SessionState) (line input : Bytes) :
    Serves env.disk (asks s env.now line input) (handle env s line input).steps
      fun res => (handle env s line input).reply = replyTo res := by
  have hcarries : Carries env (asksLine s env.now line input) (handle env s line input) := by
    cases hline : split line with
    | nil =>
      simp only [asksLine, handle, hline]
      exact carries_idle rfl
    | cons cmd fs =>
      by_cases hopen : isOpenCommand cmd
      · rw [asksLine_of_open hline hopen]
        exact carries_idle (handle_open_steps hline hopen)
      · simp only [isOpenCommand, not_or] at hopen
        obtain ⟨hhello, hping, hquit, hlogin, hauth⟩ := hopen
        unfold asksLine handle
        simp only [hline]
        refine carries_skip hhello (carries_skip hping (carries_skip hquit
          (carries_skip hlogin (carries_skip hauth ?_))))
        refine carries_ite (fun _ => carries_idle rfl) fun _ => ?_
        refine carries_ite (fun _ => carries_idle rfl) fun _ => ?_
        unfold asksCommand
        refine carries_ite (fun _ => doStat_carries) fun _ => ?_
        refine carries_ite (fun _ => doPutFile_carries henv) fun _ => ?_
        refine carries_ite (fun _ => doGetFile_carries henv) fun _ => ?_
        refine carries_ite (fun _ => doDelFile_carries henv) fun _ => ?_
        rw [hline]
        refine carries_ite (fun _ => doPutChunk_carries henv _) fun _ => ?_
        refine carries_ite (fun _ => doGetChunk_carries henv _) fun _ => ?_
        refine carries_ite (fun _ => doDelChunk_carries henv _) fun _ => ?_
        exact carries_ite (fun _ => doList_carries) fun _ => carries_idle rfl
  exact hcarries

end Session

namespace WebUi

/-- The response that carries a result; no route asks for the tag of one file. -/
def responseTo : Vault.Result → Option (ℕ × WebBody)
  | .stored => some (201, .ok)
  | .removed => some (200, .ok)
  | .missing => some (404, .error "no such file")
  | .content c => some (200, .content c)
  | .info .. => none
  | .listing l => some (200, .files l)

/-- An upload under a name that can be stored, whose body arrives whole. -/
def asksPutFile (user : Bytes) (now : ℤ) (name query : Bytes) (contentLength : ℕ) (input : Bytes) :
    Option Vault.Request :=
  if (filePath user name).isSome ∧ contentLength ≤ input.length then
    some (.put user name ⟨input.take contentLength, firstLine (queryTag query), now⟩)
  else none

def asksUser (user : Bytes) (now : ℤ) (request : HttpRequest) (input : Bytes) :
    Option Vault.Request :=
  let name := request.path.drop kFilesPrefix.length
  if request.method = ascii "GET" ∧ request.path = ascii "/api/files" then some (.list user)
  else if kFilesPrefix.isPrefixOf request.path ∧ request.method = ascii "GET" then
    some (.get user name)
  else if kFilesPrefix.isPrefixOf request.path ∧ request.method = ascii "PUT" then
    asksPutFile user now name request.query request.contentLength.toNat input
  else if kFilesPrefix.isPrefixOf request.path ∧ request.method = ascii "DELETE" then
    some (.delete user name)
  else none

/-- What a request asks of the map for the account its token stands for. -/
def asks (clock : ℕ) (entries : BrowserSessions) (now : ℤ) (request : HttpRequest)
    (input : Bytes) : Vault.Request :=
  if IsFileRoute request then
    ((authenticate clock entries request).2.bind fun user =>
      asksUser user now request input).getD .other
  else .other

/-- A handler that serves a request, seen from its response. -/
def Carries (env : SessionEnv) (r : Option Vault.Request) (h : WebHandled) : Prop :=
  Serves env.disk (r.getD .other) h.steps fun res => h.response = responseTo res

variable {env : SessionEnv} {user name : Bytes}

theorem carries_idle {h : WebHandled} (hsteps : h.steps = []) : Carries env none h :=
  serves_other (by rw [hsteps]; rfl)

theorem carries_ite {c : Prop} [Decidable c] {r r' : Option Vault.Request} {h h' : WebHandled}
    (ht : c → Carries env r h) (he : ¬ c → Carries env r' h') :
    Carries env (if c then r else r') (if c then h else h') := by
  split_ifs with hc
  · exact ht hc
  · exact he hc

theorem serveList_carries (input : Bytes) :
    Carries env (some (.list user)) (serveList env user input) :=
  ⟨rfl, .inr ⟨_, ⟨_, rfl, Vault.listing_listFiles env.disk user⟩, rfl⟩⟩

theorem serveGetFile_carries (henv : env.Sound) (input : Bytes) :
    Carries env (some (.get user name)) (serveGetFile env user name input) := by
  unfold serveGetFile
  rw [Vault.content_vaultOf]
  cases hkept : (vaultOf env.disk).files user name with
  | none => exact ⟨rfl, .inr ⟨.missing, by simp [hkept], rfl⟩⟩
  | some k =>
    refine ⟨rfl, .inr ⟨.content k.content, by simp [hkept], ?_⟩⟩
    simp [henv.reads, responseTo, respond]

theorem serveDeleteFile_carries (henv : env.Sound) (input : Bytes) :
    Carries env (some (.delete user name)) (serveDeleteFile env user name input) := by
  obtain ⟨hvault, hremoved⟩ := @Vault.vaultOf_run_removeFile env.disk user name env.removes
    henv.removesFile henv.removesSidecar
  refine ⟨hvault, .inr ?_⟩
  simp only [serveDeleteFile, hremoved, Option.getD_some, Vault.answers_delete]
  cases (vaultOf env.disk).files user name with
  | none => exact ⟨.missing, rfl, rfl⟩
  | some k => exact ⟨.removed, rfl, rfl⟩

theorem servePutFile_carries (henv : env.Sound) (query : Bytes) (contentLength : ℕ)
    (input : Bytes) : Carries env (asksPutFile user env.now name query contentLength input)
      (servePutFile env user name query contentLength input) := by
  have hsafe : (if isSafeName name = true then filePath user name else none) = filePath user name := by
    split_ifs with h
    · rfl
    · unfold filePath
      cases accountDir user <;> simp [h]
  simp only [servePutFile, asksPutFile, hsafe]
  cases hpath : filePath user name with
  | none => exact carries_idle rfl
  | some final =>
    simp only [henv.receives, henv.renames, Bool.true_eq_false, ↓reduceIte, Option.isSome_some,
      true_and]
    by_cases hlen : contentLength ≤ input.length
    · rw [if_pos hlen, if_neg (not_lt.mpr hlen), henv.tag]
      exact ⟨Vault.vaultOf_run_upload hpath, .inr ⟨.stored, rfl, rfl⟩⟩
    · rw [if_neg hlen, if_pos (not_le.mp hlen)]
      refine serves_other (@Vault.vaultOf_run_temp _ env.random _ fun st hst => ?_)
      rcases List.mem_pair.mp hst with rfl | rfl
      · exact .inl ⟨_, rfl⟩
      · exact .inr rfl

theorem serveUser_carries {env : WebEnv} (henv : env.Sound) (request : HttpRequest)
    (input : Bytes) : Carries env.toSessionEnv (asksUser user env.now request input)
      (serveUser env user request input) := by
  unfold asksUser serveUser
  refine carries_ite (fun _ => serveList_carries _) fun _ => ?_
  refine carries_ite (fun _ => serveGetFile_carries henv _) fun _ => ?_
  refine carries_ite (fun _ => servePutFile_carries henv _ _ _) fun _ => ?_
  exact carries_ite (fun _ => serveDeleteFile_carries henv _) fun _ => carries_idle rfl

theorem handle_snd_of_isFileRoute {env : WebEnv} {request : HttpRequest} (h : IsFileRoute request)
    (entries : BrowserSessions) (input : Bytes) : (handle env entries request input).2 =
      (authenticate env.clock entries request).2.elim
        (respond 401 (.error "not signed in") (drainBody request input))
        fun user => serveUser env user request input := by
  have hapi := isApi_of_isFileRoute h
  have hpages : kApiPrefix.isPrefixOf (ascii "/") = false ∧
      kApiPrefix.isPrefixOf (ascii "/index.html") = false := by decide
  have hpost : request.method ≠ ascii "POST" := by
    have hmethods : ascii "GET" ≠ ascii "POST" ∧ ascii "PUT" ≠ ascii "POST" ∧
        ascii "DELETE" ≠ ascii "POST" := by decide
    rcases h with ⟨hmethod, -⟩ | ⟨-, hmethod | hmethod | hmethod⟩
    · exact hmethod ▸ hmethods.1
    · exact hmethod ▸ hmethods.1
    · exact hmethod ▸ hmethods.2.1
    · exact hmethod ▸ hmethods.2.2
  have hpage : ¬ (request.path = ascii "/" ∨ request.path = ascii "/index.html") := by
    rintro (hpath | hpath)
    · rw [hpath, hpages.1] at hapi
      contradiction
    · rw [hpath, hpages.2] at hapi
      contradiction
  rw [handle_snd, if_neg fun hc => hpage hc.2, if_neg fun hc => hpost hc.1,
    if_neg fun hc => hpost hc.1, if_pos hapi]

theorem handle_steps_of_other {env : WebEnv} {request : HttpRequest} (h : ¬ IsFileRoute request)
    (entries : BrowserSessions) (input : Bytes) : (handle env entries request input).2.steps = [] := by
  rw [handle_snd]
  split_ifs
  · rfl
  · exact serveLogin_steps _ _ _ _
  · rfl
  · cases (authenticate env.clock entries request).2 with
    | none => rfl
    | some user =>
      simp only [Option.elim_some, serveUser_of_other _ _ _ _ h]
      rfl
  · rw [serveUser_of_other _ _ _ _ h]
    rfl

theorem handle_serves {env : WebEnv} (henv : env.Sound) (entries : BrowserSessions)
    (request : HttpRequest) (input : Bytes) :
    Serves env.disk (asks env.clock entries env.now request input)
      (handle env entries request input).2.steps
      fun res => (handle env entries request input).2.response = responseTo res := by
  by_cases hroute : IsFileRoute request
  · rw [handle_snd_of_isFileRoute hroute, asks, if_pos hroute]
    cases (authenticate env.clock entries request).2 with
    | none => exact carries_idle rfl
    | some user => exact serveUser_carries henv request input
  · rw [asks, if_neg hroute]
    exact serves_other (by rw [handle_steps_of_other hroute]; rfl)

end WebUi

namespace Service

open Machine

def Event.env : Event → SessionEnv
  | .command _ env _ _ => env
  | .request env _ _ _ _ _ => env

/-- What an event asks of the map. It depends on the connection or the token, not on the store. -/
def asks (s : Service) : Event → Vault.Request
  | .command conn env line input => Session.asks (s.sessions conn) env.now line input
  | .request env elapsed _ _ line input =>
      match readRequest line input with
      | .error _ => .other
      | .ok (request, body) => WebUi.asks (s.now + elapsed) s.entries env.now request body

/-- The answer that carries a result. -/
def Reply.Shows : Reply → Vault.Result → Prop
  | .command r, res => r.reply = Session.replyTo res
  | .request r, res => r.response = WebUi.responseTo res
  | .closed, _ => False

/-- The answer to a request is the one the map calls for. -/
def Answered (v : Vault) (r : Vault.Request) (reply : Reply) : Prop :=
  r = .other ∨ ∃ res, v.Answers r res ∧ reply.Shows res

theorem serves_step (s : Service) (e : Event) (he : e.env.Sound) :
    Serves s.disk (asks s e) (steps s e) (s.answer e).Shows := by
  cases e with
  | command conn env line input =>
    have henv : ({ env with disk := s.disk } : SessionEnv).Sound := ⟨he.1, he.2, he.3, he.4, he.5,
      he.6, he.7⟩
    exact Session.handle_serves henv (s.sessions conn) line input
  | request env elapsed more drawn line input =>
    have henv : (s.web env elapsed more drawn).Sound := ⟨he.1, he.2, he.3, he.4, he.5, he.6, he.7⟩
    simp only [asks, steps, answer]
    cases readRequest line input with
    | error reason => exact serves_other rfl
    | ok got => exact WebUi.handle_serves henv s.entries got.1 got.2

theorem refines_vault : Refines step answer (fun _ e => e.env.Sound) Vault.step Answered
    (fun s => vaultOf s.disk) asks where
  step_abs s e he := by
    rw [step_disk]
    exact (serves_step s e he).vault
  out_allowed s e he := (serves_step s e he).answer

/-- In every run of the server on sound storage, whatever the connections and browsers send and in
whatever order, the store changes as the map of names changes under the requests, and every answer
is the one the map calls for. -/
theorem run_refines_vault (s : Service) (es : List Event) (h : ∀ e ∈ es, e.env.Sound) :
    vaultOf (run step s es).disk = run (labelled Vault.step) (vaultOf s.disk)
      (trace step (fun s e => (asks s e, answer s e)) s es) ∧
    Along (labelled Vault.step) (fun v x => Answered v x.1 x.2) (vaultOf s.disk)
      (trace step (fun s e => (asks s e, answer s e)) s es) :=
  refines_vault.run (along_of_forall fun e he _ => h e he)

def sampleRun : List Event :=
  let env : SessionEnv := { calmEnv with verify := fun _ _ => true }
  [.command 0 env (ascii "LOGIN ann pw") [], .command 0 env (ascii "PUTFILE 2 - a") (ascii "hi"),
    .command 0 env (ascii "GETFILE a") []]

theorem run_refines_vault_sample :
    (vaultOf (run step (start ∅ 0) sampleRun).disk).files (ascii "ann") (ascii "a") =
      some ⟨ascii "hi", ascii "-", 0⟩ := by
  have hsound : ∀ e ∈ sampleRun, e.env.Sound := by
    intro e he
    simp only [sampleRun, List.mem_cons, List.not_mem_nil, or_false] at he
    rcases he with rfl | rfl | rfl <;> exact ⟨rfl, rfl, rfl, rfl, rfl, rfl, rfl⟩
  rw [(run_refines_vault (start ∅ 0) sampleRun hsound).1]
  decide +kernel

end Service

end PersonalCloud
