import PersonalCloud.Server.Http
import PersonalCloud.Server.Session

/-! The browser interface: sessions under bearer tokens, and what one HTTP request does. -/
namespace PersonalCloud

/-- What a bearer token stands for. Times are nanoseconds of the steady clock. -/
structure BrowserEntry where
  user : Bytes
  expires : ℕ
  deriving DecidableEq

abbrev BrowserSessions := Bytes → Option BrowserEntry

namespace BrowserSessions

def kSessionMinutes : ℕ := 120

def kSessionLength : ℕ := kSessionMinutes * 60 * 10 ^ 9

def expireLocked (now : ℕ) (entries : BrowserSessions) : BrowserSessions :=
  fun token => (entries token).filter fun e => !decide (e.expires ≤ now)

/-- The clock is read for the sweep and again for the new entry. -/
def create (now issued : ℕ) (token user : Bytes) (entries : BrowserSessions) : BrowserSessions :=
  Function.update (entries.expireLocked now) token (some ⟨user, issued + kSessionLength⟩)

def lookup (now : ℕ) (token : Bytes) (entries : BrowserSessions) :
    BrowserSessions × Option Bytes :=
  if token.isEmpty then (entries, none)
  else (entries.expireLocked now, (entries.expireLocked now token).map BrowserEntry.user)

def destroy (token : Bytes) (entries : BrowserSessions) : BrowserSessions :=
  Function.update entries token none

end BrowserSessions

/-- The surroundings of one request: also the readings of the steady clock and the random token
that a login would hand out. -/
structure WebEnv extends SessionEnv where
  clock : ℕ
  issued : ℕ
  fresh : Bytes

namespace WebUi

open Proto Store Http

inductive WebBody where
  | ok
  | page
  | session (token user : Bytes)
  | error (text : String)
  | content (b : Bytes)
  | files (entries : List StoredFile)
  deriving DecidableEq

/-- The effect of a request; no response stands for a connection closed without one. -/
structure WebHandled where
  response : Option (ℕ × WebBody)
  go : Bool
  steps : List DiskStep
  rest : Bytes

def respond (status : ℕ) (body : WebBody) (input : Bytes) : WebHandled :=
  ⟨some (status, body), true, [], input⟩

/-- What follows the first `tag=` in the query. -/
def queryTag : Bytes → Bytes
  | [] => []
  | c :: cs => if (ascii "tag=").isPrefixOf (c :: cs) then (c :: cs).drop 4 else queryTag cs

def serveList (env : SessionEnv) (user input : Bytes) : WebHandled :=
  respond 200 (.files (listFiles env.disk user)) input

def serveGetFile (env : SessionEnv) (user name input : Bytes) : WebHandled :=
  match (filePath user name).bind env.disk.content with
  | none => respond 404 (.error "no such file") input
  | some content => { respond 200 (.content (if env.reads then content else [])) input with
      go := env.reads }

def serveDeleteFile (env : SessionEnv) (user name input : Bytes) : WebHandled :=
  let removed := removeFile env.disk env.removes user name
  { respond (if removed.2 then 200 else 404)
      (if removed.2 then .ok else .error "no such file") input with steps := removed.1 }

/-- The body is received even where writing it fails, and drained where the name is refused. -/
def servePutFile (env : SessionEnv) (user name query : Bytes) (contentLength : ℕ)
    (input : Bytes) : WebHandled :=
  let temp := tempPath env.random
  let rest := input.drop contentLength
  match if isSafeName name then filePath user name else none with
  | none => respond 400 (.error "that name cannot be stored") rest
  | some final =>
      match env.receives with
      | .notOpened => ⟨none, false, [], input⟩
      | .cut k =>
          let partly := [.write temp ⟨(input.take contentLength).take k, env.now⟩, .remove temp]
          if input.length < contentLength then ⟨none, false, partly, rest⟩
          else { respond 500 (.error "write failed") rest with steps := partly }
      | .done =>
          let whole := [.write temp ⟨input.take contentLength, env.now⟩]
          if input.length < contentLength then ⟨none, false, whole ++ [.remove temp], rest⟩
          else if env.renames = false then
            { respond 500 (.error "cannot store the file") rest with
              steps := whole ++ [.remove temp] }
          else
            { respond 201 .ok rest with
              steps := whole ++ [.rename temp final] ++
                writeTag env.now env.tag user name (queryTag query) }

/-- Reads and discards a body the handler does not want. -/
def drainBody (request : HttpRequest) (input : Bytes) : Bytes :=
  input.drop request.contentLength.toNat

def bearer (request : HttpRequest) : Option Bytes :=
  let header := request.header (ascii "authorization")
  if (ascii "Bearer ").isPrefixOf header then some (header.drop (ascii "Bearer ").length) else none

def authenticate (clock : ℕ) (entries : BrowserSessions) (request : HttpRequest) :
    BrowserSessions × Option Bytes :=
  match bearer request with
  | none => (entries, none)
  | some token => entries.lookup clock token

def serveLogin (env : WebEnv) (entries : BrowserSessions) (request : HttpRequest) (input : Bytes) :
    BrowserSessions × WebHandled :=
  let size := request.contentLength.toNat
  let rest := drainBody request input
  if Config.kMaxLineLen < size then (entries, respond 400 (.error "request too large") rest)
  else if input.length < size then (entries, ⟨none, false, [], rest⟩)
  else
    let body := input.take size
    match jsonField body (ascii "user"), jsonField body (ascii "password") with
    | some user, some password =>
        if env.verify user password = false then
          (entries, respond 401 (.error "wrong account or password") rest)
        else if isValidUsername user = false ∨ env.ensures = false then
          (entries, respond 500 (.error "cannot prepare storage") rest)
        else
          (entries.create env.clock env.issued env.fresh user,
            respond 200 (.session env.fresh user) rest)
    | _, _ => (entries, respond 400 (.error "missing user or password") rest)

def serveLogout (entries : BrowserSessions) (request : HttpRequest) (input : Bytes) :
    BrowserSessions × WebHandled :=
  let entries :=
    match bearer request with
    | some token => entries.destroy token
    | none => entries
  (entries, respond 200 .ok (drainBody request input))

def kApiPrefix : Bytes := ascii "/api/"
def kFilesPrefix : Bytes := ascii "/api/files/"

/-- The routes behind the sign-in. Only a wrong route and an upload look at the body. -/
def serveUser (env : WebEnv) (user : Bytes) (request : HttpRequest) (input : Bytes) : WebHandled :=
  let name := request.path.drop kFilesPrefix.length
  if request.method = ascii "GET" ∧ request.path = ascii "/api/files" then
    serveList env.toSessionEnv user input
  else if kFilesPrefix.isPrefixOf request.path ∧ request.method = ascii "GET" then
    serveGetFile env.toSessionEnv user name input
  else if kFilesPrefix.isPrefixOf request.path ∧ request.method = ascii "PUT" then
    servePutFile env.toSessionEnv user name request.query request.contentLength.toNat input
  else if kFilesPrefix.isPrefixOf request.path ∧ request.method = ascii "DELETE" then
    serveDeleteFile env.toSessionEnv user name input
  else respond 404 (.error "no such route") (drainBody request input)

/-- Handles one request; outside `/api/` the user stays empty. -/
def handle (env : WebEnv) (entries : BrowserSessions) (request : HttpRequest) (input : Bytes) :
    BrowserSessions × WebHandled :=
  if request.method = ascii "GET" ∧
      (request.path = ascii "/" ∨ request.path = ascii "/index.html") then
    (entries, respond 200 .page input)
  else if request.method = ascii "POST" ∧ request.path = ascii "/api/login" then
    serveLogin env entries request input
  else if request.method = ascii "POST" ∧ request.path = ascii "/api/logout" then
    serveLogout entries request input
  else if kApiPrefix.isPrefixOf request.path then
    match authenticate env.clock entries request with
    | (entries, none) => (entries, respond 401 (.error "not signed in") (drainBody request input))
    | (entries, some user) => (entries, serveUser env user request input)
  else (entries, serveUser env [] request input)

/-- The loop of a connection that began with an HTTP request line: the lines and requests it reads,
each with what was done. Other connections may change the session map in between. -/
def runHttpFrom (found : ℕ → WebEnv × BrowserSessions) :
    ℕ → ℕ → Bytes → Bytes → List (Bytes × HttpRequest × WebHandled)
  | 0, _, _, _ => []
  | fuel + 1, k, line, input =>
      match readRequest line input with
      | .error _ => []
      | .ok (request, body) =>
          let r := (handle (found k).1 (found k).2 request body).2
          (line, request, r) ::
            if r.go then
              match Channel.readLine r.rest with
              | none => []
              | some (line, rest) =>
                  if looksLikeHttp line then runHttpFrom found fuel (k + 1) line rest else []
            else []

/-- Each round but the first consumes at least one byte. -/
def runHttp (found : ℕ → WebEnv × BrowserSessions) (line input : Bytes) :
    List (Bytes × HttpRequest × WebHandled) :=
  runHttpFrom found (input.length + 1) 0 line input

end WebUi

end PersonalCloud
