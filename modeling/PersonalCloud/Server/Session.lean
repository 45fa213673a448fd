import PersonalCloud.Server.Store

/-! One connection of the own protocol: what a command line does to the store, what is sent back,
and how much of the bytes behind the line it consumes. -/
namespace PersonalCloud

/-- What the connection has proved so far. -/
structure SessionState where
  user : Bytes := []
  loggedIn : Bool := false
  machineTrusted : Bool := false
  deriving DecidableEq

/-- The surroundings of one command: accounts, machine token, store, clock and random bytes, and
what local storage does during it. -/
structure SessionEnv where
  verify : Bytes → Bytes → Bool
  token : Bytes
  disk : Disk
  now : ℤ
  random : Bytes
  ensures : Bool := true
  /-- The write of the body to the temporary file. -/
  receives : Store.FileWrite := .done
  reads : Bool := true
  renames : Bool := true
  /-- The write of the sidecar. -/
  tag : Store.FileWrite := .done
  removes : Store.Removal := ⟨true, true⟩

/-- Storage on which nothing fails, the write of the sidecar included. Its name has four bytes more
than the file's, so where a name has 255 bytes at most, a file has no sidecar from 252 on. -/
structure SessionEnv.Sound (env : SessionEnv) : Prop where
  ensures : env.ensures = true
  receives : env.receives = .done
  reads : env.reads = true
  renames : env.renames = true
  tag : env.tag = .done
  removesFile : env.removes.file = true
  removesSidecar : env.removes.sidecar = true

def calmEnv : SessionEnv where
  verify _ _ := false
  token := []
  disk := ∅
  now := 0
  random := []

theorem calmEnv_sound : calmEnv.Sound := ⟨rfl, rfl, rfl, rfl, rfl, rfl, rfl⟩

structure Handled where
  reply : Bytes
  /-- Whether the connection goes on. -/
  go : Bool
  steps : List DiskStep
  /-- The bytes behind the line that were not consumed. -/
  rest : Bytes
  session : SessionState

namespace Session

open Proto Channel Store

def answer (s : SessionState) (line : Bytes) (input : Bytes) : Handled :=
  ⟨sendLine line, true, [], input, s⟩

/-- The error is reported, the connection may continue. -/
def fail (s : SessionState) (reason : Bytes) (input : Bytes) : Handled :=
  answer s (sp kErr reason) input

/-- Answers with one line and closes the connection. -/
def hangUp (s : SessionState) (line : Bytes) (input : Bytes) : Handled :=
  ⟨sendLine line, false, [], input, s⟩

/-- The steps in which a body arrives in the temporary file; the flag tells whether it is whole. -/
def receiveToFile (env : SessionEnv) (size : ℕ) (input : Bytes) : List DiskStep × Bool :=
  let temp := tempPath env.random
  match env.receives with
  | .notOpened => ([], false)
  | .cut k => ([.write temp ⟨(input.take size).take k, env.now⟩], false)
  | .done => ([.write temp ⟨input.take size, env.now⟩], decide (size ≤ input.length))

def doLogin (env : SessionEnv) (s : SessionState) (f : List Bytes) (input : Bytes) : Handled :=
  match f with
  | [_, name, password] =>
      if env.verify name password = false then hangUp s (sp kErr (ascii "bad-credentials")) input
      else if isValidUsername name = false ∨ env.ensures = false then
        fail s (ascii "account-storage") input
      else answer { s with user := name, loggedIn := true } kOk input
  | _ => fail s (ascii "malformed-login") input

def doAuth (env : SessionEnv) (s : SessionState) (f : List Bytes) (input : Bytes) : Handled :=
  match f with
  | [_, token] =>
      if token ≠ env.token then hangUp s (sp kErr (ascii "bad-token")) input
      else answer { s with machineTrusted := true } kOk input
  | _ => fail s (ascii "malformed-auth") input

def doStat (env : SessionEnv) (s : SessionState) (line input : Bytes) : Handled :=
  match splitN line 2 with
  | [_, name] =>
      match fileInfo env.disk s.user name with
      | none => answer s kNone input
      | some (size, tag) =>
          answer s (sp kMeta (sp (Decimal.text size) (if tag.isEmpty then ascii "-" else tag))) input
  | _ => fail s (ascii "malformed-stat") input

/-- Receives a body and, once it is whole, renames it to its place; `after` are the steps that
follow the rename. -/
def storeBody (env : SessionEnv) (s : SessionState) (final : Path) (size : ℕ)
    (after : List DiskStep) (input : Bytes) : Handled :=
  let temp := tempPath env.random
  let received := receiveToFile env size input
  if received.2 = false then
    ⟨[], false, received.1 ++ [.remove temp], input.drop size, s⟩
  else if env.renames = false then
    { fail s (ascii "store-failed") (input.drop size) with
      steps := received.1 ++ [.remove temp] }
  else
    { answer s kOk (input.drop size) with
      steps := received.1 ++ [.rename temp final] ++ after }

def doPutFile (env : SessionEnv) (s : SessionState) (line input : Bytes) : Handled :=
  match splitN line 4 with
  | [_, size, tag, name] =>
      match parseSize size Config.kMaxTransferSize with
      | none => fail s (ascii "bad-size") input
      | some size =>
          match filePath s.user name with
          | none => fail s (ascii "bad-name") input
          | some final =>
              storeBody env s final size.toNat (writeTag env.now env.tag s.user name tag) input
  | _ => fail s (ascii "malformed-putfile") input

def sendFile (env : SessionEnv) (s : SessionState) (content input : Bytes) : Handled :=
  ⟨sendLine (sp kData (Decimal.text content.length)) ++ if env.reads then content else [],
    env.reads, [], input, s⟩

def doGetFile (env : SessionEnv) (s : SessionState) (line input : Bytes) : Handled :=
  match splitN line 2 with
  | [_, name] =>
      match (filePath s.user name).bind env.disk.content with
      | none => answer s kNone input
      | some content => sendFile env s content input
  | _ => fail s (ascii "malformed-getfile") input

def doDelFile (env : SessionEnv) (s : SessionState) (line input : Bytes) : Handled :=
  match splitN line 2 with
  | [_, name] =>
      let removed := removeFile env.disk env.removes s.user name
      { answer s (if removed.2 then kOk else kNone) input with steps := removed.1 }
  | _ => fail s (ascii "malformed-delfile") input

def doPutChunk (env : SessionEnv) (s : SessionState) (f : List Bytes) (input : Bytes) : Handled :=
  match f with
  | [_, id, size] =>
      match chunkPath id with
      | none => fail s (ascii "bad-chunk-id") input
      | some final =>
          match parseSize size Config.kMaxTransferSize with
          | none => fail s (ascii "bad-size") input
          | some size => storeBody env s final size.toNat [] input
  | _ => fail s (ascii "malformed-putchunk") input

def doGetChunk (env : SessionEnv) (s : SessionState) (f : List Bytes) (input : Bytes) : Handled :=
  match f with
  | [_, id] =>
      match (chunkPath id).bind env.disk.content with
      | none => answer s kNone input
      | some content => sendFile env s content input
  | _ => fail s (ascii "malformed-getchunk") input

/-- Deleting something already gone is success, so a retried cleanup does not fail. -/
def doDelChunk (env : SessionEnv) (s : SessionState) (f : List Bytes) (input : Bytes) : Handled :=
  match f with
  | [_, id] =>
      match chunkPath id with
      | none => fail s (ascii "bad-chunk-id") input
      | some path =>
          { answer s kOk input with steps := if env.removes.file then [.remove path] else [] }
  | _ => fail s (ascii "malformed-delchunk") input

/-- A listing line: size and time first, name last. -/
def listLine (e : StoredFile) : Bytes :=
  sp (Decimal.text e.size) (sp (Decimal.signedText e.modified) e.name)

def doList (env : SessionEnv) (s : SessionState) (input : Bytes) : Handled :=
  let files := listFiles env.disk s.user
  ⟨sendLine (sp kCount (Decimal.text files.length)) ++ files.flatMap fun e => sendLine (listLine e),
    true, [], input, s⟩

/-- Dispatches on the first field of a line; `input` is what the client sent behind it. -/
def handle (env : SessionEnv) (s : SessionState) (line input : Bytes) : Handled :=
  let f := split line
  match f with
  | [] => ⟨[], true, [], input, s⟩
  | cmd :: _ =>
      if cmd = kHello then answer s (sp kOk Config.kProtocol) input
      else if cmd = kPing then answer s kPong input
      else if cmd = kQuit then hangUp s kBye input
      else if cmd = kLogin then doLogin env s f input
      else if cmd = kAuth then doAuth env s f input
      else if (cmd = kStat ∨ cmd = kPutFile ∨ cmd = kGetFile ∨ cmd = kDelFile ∨ cmd = kList) ∧
          s.loggedIn = false then
        fail s (ascii "login-required") input
      else if (cmd = kPutChunk ∨ cmd = kGetChunk ∨ cmd = kDelChunk) ∧ s.machineTrusted = false then
        fail s (ascii "token-required") input
      else if cmd = kStat then doStat env s line input
      else if cmd = kPutFile then doPutFile env s line input
      else if cmd = kGetFile then doGetFile env s line input
      else if cmd = kDelFile then doDelFile env s line input
      else if cmd = kPutChunk then doPutChunk env s f input
      else if cmd = kGetChunk then doGetChunk env s f input
      else if cmd = kDelChunk then doDelChunk env s f input
      else if cmd = kList then doList env s input
      else fail s (ascii "unknown-command") input

/-- The command loop, with the surroundings of each command: the lines it handles, each with what
it did. A round consumes at least one byte. -/
def serveFrom (envs : ℕ → SessionEnv) : ℕ → ℕ → SessionState → Bytes → List (Bytes × Handled)
  | 0, _, _, _ => []
  | fuel + 1, k, s, input =>
      match readLine input with
      | none => []
      | some (line, rest) =>
          let r := handle (envs k) s line rest
          (line, r) :: if r.go then serveFrom envs fuel (k + 1) r.session r.rest else []

def serve (envs : ℕ → SessionEnv) (s : SessionState) (input : Bytes) : List (Bytes × Handled) :=
  serveFrom envs input.length 0 s input

/-- A body is either stored, after it has arrived whole, and confirmed, or it leaves nothing behind
and is not confirmed. -/
theorem storeBody_cases (env : SessionEnv) (s : SessionState) (final : Path) (size : ℕ)
    (after : List DiskStep) (input : Bytes) :
    (size ≤ input.length ∧ (storeBody env s final size after input).reply = sendLine kOk ∧
      (storeBody env s final size after input).steps =
        [.write (tempPath env.random) ⟨input.take size, env.now⟩,
          .rename (tempPath env.random) final] ++ after) ∨
    (((storeBody env s final size after input).reply = [] ∨
        ∃ reason, (storeBody env s final size after input).reply = sendLine (sp kErr reason)) ∧
      ∀ st ∈ (storeBody env s final size after input).steps, st.OnTemp env.random) := by
  have hdrop : ∀ st ∈ (receiveToFile env size input).1 ++ [.remove (tempPath env.random)],
      st.OnTemp env.random := by
    intro st hst
    rcases List.mem_append.mp hst with hst | hst
    · unfold receiveToFile at hst
      split at hst
      · simp at hst
      · exact .inl ⟨_, List.mem_singleton.mp hst⟩
      · exact .inl ⟨_, List.mem_singleton.mp hst⟩
    · exact .inr (List.mem_singleton.mp hst)
  simp only [storeBody]
  split_ifs with hwhole hrename
  · exact .inr ⟨.inl rfl, hdrop⟩
  · exact .inr ⟨.inr ⟨ascii "store-failed", rfl⟩, hdrop⟩
  · have hdone : env.receives = .done ∧ size ≤ input.length := by
      unfold receiveToFile at hwhole
      split at hwhole
      · simp at hwhole
      · simp at hwhole
      · next hreceives => exact ⟨hreceives, by simpa using hwhole⟩
    exact .inl ⟨hdone.2, rfl, by simp [receiveToFile, hdone.1]⟩

variable {env : SessionEnv} {s : SessionState} {input : Bytes} (final : Path) (size : ℕ)
  (after : List DiskStep)

theorem storeBody_rest : (storeBody env s final size after input).rest = input.drop size := by
  simp only [storeBody]
  split_ifs <;> rfl

theorem storeBody_session : (storeBody env s final size after input).session = s := by
  simp only [storeBody]
  split_ifs <;> rfl

end Session

end PersonalCloud
