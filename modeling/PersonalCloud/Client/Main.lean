import PersonalCloud.Core.Settings

/-! The start of the client: which of the command line, the environment and the settings file decides
each setting a command is run with. Texts written to the terminal are left out. -/
namespace PersonalCloud

open Settings

namespace Main

structure Credentials where
  user : Bytes := []
  password : Bytes := []
  token : Bytes := []

structure Trust where
  caFile : Bytes := []
  verify : Bool := true

structure KeyOptions where
  keyfile : Bytes := []
  allowPrompt : Bool := true

structure Options where
  credentials : Credentials := {}
  trust : Trust := {}
  key : KeyOptions := {}
  quiet : Bool := false
  server : Bytes := []
  workDir : Bytes

structure Arguments where
  options : Options
  positional : List Bytes := []
  wantsHelp : Bool := false
  wantsVersion : Bool := false
  outputPath : Bytes := []
  configPath : Bytes := []
  profile : Bytes := []
  detach : Bool := false
  logPath : Bytes := []
  pidPath : Bytes := []

def valueFlag (arg value : Bytes) (a : Arguments) : Option Arguments :=
  let o := a.options
  if arg = ascii "--token" then
    some { a with options := { o with credentials := { o.credentials with token := value } } }
  else if arg = ascii "--user" then
    some { a with options := { o with credentials := { o.credentials with user := value } } }
  else if arg = ascii "--password" then
    some { a with options := { o with credentials := { o.credentials with password := value } } }
  else if arg = ascii "--keyfile" then
    some { a with options := { o with key := { o.key with keyfile := value } } }
  else if arg = ascii "--server" then some { a with options := { o with server := value } }
  else if arg = ascii "--dir" then some { a with options := { o with workDir := value } }
  else if arg = ascii "--out" then some { a with outputPath := value }
  else if arg = ascii "--config" then some { a with configPath := value }
  else if arg = ascii "--profile" then some { a with profile := value }
  else if arg = ascii "--log" then some { a with logPath := value }
  else if arg = ascii "--pidfile" then some { a with pidPath := value }
  else if arg = ascii "--cacert" then
    some { a with options := { o with trust := { o.trust with caFile := value } } }
  else none

/-- An argument that takes no value: a switch, a positional argument, or an unknown option. -/
def plainArgument (arg : Bytes) (a : Arguments) : Option Arguments :=
  let o := a.options
  if arg = ascii "--quiet" then some { a with options := { o with quiet := true } }
  else if arg = ascii "--daemon" then some { a with detach := true }
  else if arg = ascii "--insecure" then
    some { a with options := { o with trust := { o.trust with verify := false } } }
  else if (ascii "--").isPrefixOf arg then none
  else some { a with positional := a.positional ++ [arg] }

def parseArguments : List Bytes → Arguments → Option Arguments
  | [], a => some a
  | [arg], a =>
      if arg = ascii "--version" then some { a with wantsVersion := true }
      else if arg = ascii "-h" ∨ arg = ascii "--help" then some { a with wantsHelp := true }
      else plainArgument arg a
  | arg :: value :: rest, a =>
      if arg = ascii "--version" then some { a with wantsVersion := true }
      else if arg = ascii "-h" ∨ arg = ascii "--help" then some { a with wantsHelp := true }
      else
        match valueFlag arg value a with
        | some a => parseArguments rest a
        | none => (plainArgument arg a).bind (parseArguments (value :: rest))

/-- What the client finds around it; `typed` is the line entered at the prompt for a password. -/
structure Surroundings where
  getenv : Bytes → Option Bytes
  files : Bytes → FileState
  currentPath : Bytes
  typed : Option Bytes

def orEnvironment (getenv : Bytes → Option Bytes) (name target : Bytes) : Bytes :=
  if target = [] then (getenv name).getD target else target

def fill (target value : Bytes) : Bytes := if target = [] ∧ value ≠ [] then value else target

def stripTrailingNewline (s : Bytes) : Bytes := s.rdropWhile fun c => c == 10 || c == 13

def isLocal (command : Bytes) : Bool := command == ascii "seal" || command == ascii "open"

def commandNeedsAccount (command : Bytes) : Bool :=
  [ascii "upload", ascii "download", ascii "list", ascii "delete", ascii "sync", ascii "autosync",
    ascii "watch"].contains command

/-- In front of the settings file: local commands verify nobody, and the CA certificate is the only
setting already taken from the environment. -/
def beforeSettings (getenv : Bytes → Option Bytes) (command : Bytes) (o : Options) : Options :=
  { o with trust :=
    { caFile := orEnvironment getenv (ascii "PCS_CACERT") o.trust.caFile
      verify := o.trust.verify && !isLocal command } }

def fillFrom (settings : Settings) (currentPath : Bytes) (o : Options) : Options :=
  { o with
    credentials :=
      { user := fill o.credentials.user (settings.get (ascii "user"))
        password := fill o.credentials.password (settings.get (ascii "password"))
        token := fill o.credentials.token (settings.get (ascii "token")) }
    trust := { o.trust with caFile := fill o.trust.caFile (settings.get (ascii "cacert")) }
    key := { o.key with keyfile := fill o.key.keyfile (settings.get (ascii "keyfile")) }
    workDir :=
      if settings.get (ascii "dir") ≠ [] ∧ o.workDir = currentPath then settings.get (ascii "dir")
      else o.workDir }

/-- Behind the settings file: what is still missing comes from the environment. -/
def afterSettings (getenv : Bytes → Option Bytes) (o : Options) : Options :=
  { o with credentials :=
    { user := orEnvironment getenv (ascii "PCS_USER") o.credentials.user
      password := orEnvironment getenv (ascii "PCS_PASSWORD") o.credentials.password
      token := orEnvironment getenv (ascii "PCS_TOKEN") o.credentials.token } }

/-- A password is asked for when the command logs in and nothing supplied one. -/
def askPassword (typed : Option Bytes) (command : Bytes) (o : Options) : Option Options :=
  if commandNeedsAccount command ∧ o.credentials.user ≠ [] ∧ o.credentials.password = [] then
    typed.map fun line =>
      { o with credentials := { o.credentials with password := stripTrailingNewline line } }
  else some o

/-- Up to the command: the options it is run with, or the exit code of a run that ends before. -/
def main (e : Surroundings) (argv : List Bytes) : Except ℕ Options :=
  match parseArguments argv { options := { workDir := e.currentPath } } with
  | none => .error 1
  | some a =>
      if a.wantsVersion then .error 0
      else
        match a.positional with
        | [] => .error (if a.wantsHelp then 0 else 1)
        | command :: _ =>
            if a.wantsHelp then .error 0
            else
              let o := beforeSettings e.getenv command a.options
              match load e.files (searchPaths e.getenv e.currentPath) a.configPath a.profile with
              | .error _ => .error 1
              | .ok settings =>
                  let o := fillFrom settings e.currentPath o
                  if command = ascii "config" then .error 0
                  else if isLocal command = false ∧ o.trust.verify = true ∧ o.trust.caFile = [] then
                    .error 1
                  else
                    match askPassword e.typed command (afterSettings e.getenv o) with
                    | none => .error 1
                    | some o => .ok o

inductive PassphraseSource
  | keyfile (path : Bytes)
  | environment (value : Bytes)
  | prompt
  deriving DecidableEq

/-- Where `resolvePassphrase` looks: a value of line breaks only counts as none. -/
def passphraseSource (getenv : Bytes → Option Bytes) (opts : KeyOptions) : PassphraseSource :=
  if opts.keyfile ≠ [] then .keyfile opts.keyfile
  else
    match getenv (ascii "PCS_PASSPHRASE") with
    | some value => if stripTrailingNewline value ≠ [] then .environment value else .prompt
    | none => .prompt

def readKeyfile (files : Bytes → FileState) (path : Bytes) : Except Bytes Bytes :=
  match files path with
  | .readable content =>
      let line := stripTrailingNewline ((Lines.split 10 content).headD [])
      if line = [] then .error (ascii "key file is empty: " ++ path) else .ok line
  | _ => .error (ascii "cannot read key file: " ++ path)

/-- The passphrase; `typed` is the line entered at a prompt, if there is a terminal to ask at. -/
def resolvePassphrase (getenv : Bytes → Option Bytes) (files : Bytes → FileState) (isTty : Bool)
    (typed : Option Bytes) (opts : KeyOptions) : Except Bytes Bytes :=
  match passphraseSource getenv opts with
  | .keyfile path => readKeyfile files path
  | .environment value => .ok (stripTrailingNewline value)
  | .prompt =>
      if opts.allowPrompt = false ∨ isTty = false then
        .error (ascii "no passphrase available: pass --keyfile or set PCS_PASSPHRASE")
      else
        match typed with
        | none => .error (ascii "no passphrase entered")
        | some line =>
            if stripTrailingNewline line = [] then .error (ascii "no passphrase entered")
            else .ok (stripTrailingNewline line)

/-- Asks twice when the passphrase comes from a prompt, and otherwise asks nothing. -/
def confirmPassphrase (getenv : Bytes → Option Bytes) (files : Bytes → FileState) (isTty : Bool)
    (typed again : Option Bytes) (opts : KeyOptions) : Except Bytes Bytes :=
  if opts.keyfile ≠ [] ∨ (getenv (ascii "PCS_PASSPHRASE")).isSome = true ∨
      opts.allowPrompt = false ∨ isTty = false then
    resolvePassphrase getenv files isTty typed opts
  else
    match typed.map stripTrailingNewline, again.map stripTrailingNewline with
    | none, _ => .error (ascii "no passphrase entered")
    | some first, second =>
        if first = [] then .error (ascii "no passphrase entered")
        else
          match second with
          | none => .error (ascii "no passphrase entered")
          | some second =>
              if first ≠ second then .error (ascii "the two entries did not match") else .ok first

structure Sources where
  cli : Bytes
  env : Bytes
  file : Bytes

namespace Sources

/-- The command line wins over the environment, and the settings file only fills gaps. -/
def wanted (s : Sources) : Bytes :=
  if s.cli ≠ [] then s.cli else if s.env ≠ [] then s.env else s.file

/-- The environment and the settings file do not both decide, or they agree. -/
def Clear (s : Sources) : Prop := s.cli ≠ [] ∨ s.env = [] ∨ s.file = [] ∨ s.env = s.file

/-- The same order for the passphrase, of which only the environment holds the value itself. -/
def wantedPassphrase (s : Sources) : PassphraseSource :=
  if s.cli ≠ [] then .keyfile s.cli
  else if s.env ≠ [] then .environment s.env
  else if s.file ≠ [] then .keyfile s.file
  else .prompt

/-- A variable that is set decides only without a key file in the settings, and not with line breaks
alone. -/
def ClearPassphrase (s : Sources) : Prop :=
  s.cli ≠ [] ∨ s.env = [] ∨ s.file = [] ∧ stripTrailingNewline s.env ≠ []

end Sources

def sourcesOf (getenv : Bytes → Option Bytes) (settings : Settings) (name key cli : Bytes) :
    Sources := ⟨cli, (getenv name).getD [], settings.get key⟩

section Precedence

variable {getenv : Bytes → Option Bytes} {settings : Settings} {name key cli : Bytes}

theorem orEnvironment_eq : orEnvironment getenv name cli =
    if cli = [] then (getenv name).getD [] else cli := by
  unfold orEnvironment
  split_ifs with h
  · rw [h]
  · rfl

theorem fill_orEnvironment : fill (orEnvironment getenv name cli) (settings.get key) =
    (sourcesOf getenv settings name key cli).wanted := by
  simp only [fill, orEnvironment_eq, Sources.wanted, sourcesOf]
  by_cases hcli : cli = []
  · by_cases henv : (getenv name).getD [] = []
    · by_cases hfile : settings.get key = []
      · simp [hcli, henv, hfile]
      · simp [hcli, henv, hfile]
    · simp [hcli, henv]
  · simp [hcli]

theorem orEnvironment_fill : orEnvironment getenv name (fill cli (settings.get key)) =
    if cli ≠ [] then cli else if settings.get key ≠ [] then settings.get key
    else (getenv name).getD [] := by
  simp only [fill, orEnvironment_eq]
  by_cases hcli : cli = []
  · by_cases hfile : settings.get key = []
    · simp [hcli, hfile]
    · simp [hcli, hfile]
  · simp [hcli]

theorem orEnvironment_fill_eq_iff : orEnvironment getenv name (fill cli (settings.get key)) =
      (sourcesOf getenv settings name key cli).wanted ↔
    (sourcesOf getenv settings name key cli).Clear := by
  rw [orEnvironment_fill]
  simp only [Sources.wanted, Sources.Clear, sourcesOf]
  by_cases hcli : cli = []
  · by_cases henv : (getenv name).getD [] = []
    · simp [hcli, henv]
    · by_cases hfile : settings.get key = []
      · simp [hcli, hfile]
      · simp [hcli, henv, hfile, eq_comm]
  · simp [hcli]

theorem orEnvironment_fill_eq_nil : orEnvironment getenv name (fill cli (settings.get key)) = [] ↔
    (sourcesOf getenv settings name key cli).wanted = [] := by
  rw [orEnvironment_fill]
  simp only [Sources.wanted, sourcesOf]
  by_cases hcli : cli = []
  · by_cases henv : (getenv name).getD [] = []
    · simp [hcli, henv]
    · by_cases hfile : settings.get key = []
      · simp [hcli, hfile]
      · simp [hcli, henv, hfile]
  · simp [hcli]

theorem passphraseSource_eq (opts : KeyOptions) : passphraseSource getenv opts =
    if opts.keyfile ≠ [] then .keyfile opts.keyfile
    else if stripTrailingNewline ((getenv (ascii "PCS_PASSPHRASE")).getD []) ≠ [] then
      .environment ((getenv (ascii "PCS_PASSPHRASE")).getD [])
    else .prompt := by
  unfold passphraseSource
  cases getenv (ascii "PCS_PASSPHRASE") with
  | none => rfl
  | some value => rfl

theorem passphraseSource_eq_iff {opts : KeyOptions}
    (hkeyfile : opts.keyfile = fill cli (settings.get key)) : passphraseSource getenv opts =
      (sourcesOf getenv settings (ascii "PCS_PASSPHRASE") key cli).wantedPassphrase ↔
    (sourcesOf getenv settings (ascii "PCS_PASSPHRASE") key cli).ClearPassphrase := by
  simp only [passphraseSource_eq, hkeyfile, fill, Sources.wantedPassphrase, Sources.ClearPassphrase,
    sourcesOf]
  by_cases hcli : cli = []
  · by_cases hfile : settings.get key = []
    · by_cases hblank : stripTrailingNewline ((getenv (ascii "PCS_PASSPHRASE")).getD []) = []
      · simp [hcli, hfile, hblank]
      · have henv : (getenv (ascii "PCS_PASSPHRASE")).getD [] ≠ [] := by
          intro henv
          rw [henv] at hblank
          exact hblank rfl
        simp [hcli, hfile, hblank, henv]
    · simp [hcli, hfile]
  · simp [hcli]

end Precedence

theorem askPassword_keeps {typed : Option Bytes} {command : Bytes} {o used : Options}
    (h : askPassword typed command o = some used) :
    used.credentials.user = o.credentials.user ∧ used.credentials.token = o.credentials.token ∧
      used.trust = o.trust ∧ used.key = o.key ∧
      (o.credentials.password ≠ [] → used.credentials.password = o.credentials.password) := by
  unfold askPassword at h
  split_ifs at h with hasks
  · obtain ⟨line, -, rfl⟩ := Option.map_eq_some_iff.mp h
    exact ⟨rfl, rfl, rfl, rfl, fun hne => absurd hasks.2.2 hne⟩
  · obtain rfl := Option.some.inj h
    exact ⟨rfl, rfl, rfl, rfl, fun _ => rfl⟩

/-- A run that comes to its command has gone through all stages. -/
theorem main_ok {e : Surroundings} {argv : List Bytes} {a : Arguments} {settings : Settings}
    {used : Options}
    (hparse : parseArguments argv { options := { workDir := e.currentPath } } = some a)
    (hload : load e.files (searchPaths e.getenv e.currentPath) a.configPath a.profile = .ok settings)
    (hmain : main e argv = .ok used) :
    ∃ command, askPassword e.typed command (afterSettings e.getenv
      (fillFrom settings e.currentPath (beforeSettings e.getenv command a.options))) = some used := by
  simp only [main, hparse, hload] at hmain
  cases hpositional : a.positional with
  | nil =>
    simp only [hpositional] at hmain
    split_ifs at hmain
  | cons command rest =>
    simp only [hpositional] at hmain
    split_ifs at hmain
    cases hask : askPassword e.typed command (afterSettings e.getenv
        (fillFrom settings e.currentPath (beforeSettings e.getenv command a.options))) with
    | none =>
      rw [hask] at hmain
      cases hmain
    | some o =>
      rw [hask] at hmain
      exact ⟨command, by rw [hask, Except.ok.inj hmain]⟩

/-- The settings file only fills gaps exactly if no account setting comes from both the environment
and the file with different values, and a passphrase in the environment meets no key file in the
settings: only for the CA certificate the environment is asked first. -/
theorem settings_fill_gaps_iff {e : Surroundings} {argv : List Bytes} {a : Arguments}
    {settings : Settings} {used : Options}
    (hparse : parseArguments argv { options := { workDir := e.currentPath } } = some a)
    (hload : load e.files (searchPaths e.getenv e.currentPath) a.configPath a.profile = .ok settings)
    (hmain : main e argv = .ok used) :
    let user := sourcesOf e.getenv settings (ascii "PCS_USER") (ascii "user")
      a.options.credentials.user
    let password := sourcesOf e.getenv settings (ascii "PCS_PASSWORD") (ascii "password")
      a.options.credentials.password
    let token := sourcesOf e.getenv settings (ascii "PCS_TOKEN") (ascii "token")
      a.options.credentials.token
    let caFile := sourcesOf e.getenv settings (ascii "PCS_CACERT") (ascii "cacert")
      a.options.trust.caFile
    let passphrase := sourcesOf e.getenv settings (ascii "PCS_PASSPHRASE") (ascii "keyfile")
      a.options.key.keyfile
    (used.credentials.user = user.wanted ∧
      (password.wanted ≠ [] → used.credentials.password = password.wanted) ∧
      used.credentials.token = token.wanted ∧ used.trust.caFile = caFile.wanted ∧
      passphraseSource e.getenv used.key = passphrase.wantedPassphrase) ↔
    user.Clear ∧ password.Clear ∧ token.Clear ∧ passphrase.ClearPassphrase := by
  intro user password token caFile passphrase
  obtain ⟨command, hask⟩ := main_ok hparse hload hmain
  obtain ⟨huser, htoken, htrust, hkey, hpassword⟩ := askPassword_keeps hask
  have huser' : used.credentials.user = user.wanted ↔ user.Clear := by
    rw [huser]
    exact orEnvironment_fill_eq_iff
  have htoken' : used.credentials.token = token.wanted ↔ token.Clear := by
    rw [htoken]
    exact orEnvironment_fill_eq_iff
  have hcaFile : used.trust.caFile = caFile.wanted := by
    rw [htrust]
    exact fill_orEnvironment
  have hpassphrase : passphraseSource e.getenv used.key = passphrase.wantedPassphrase ↔
      passphrase.ClearPassphrase := by
    rw [hkey]
    exact passphraseSource_eq_iff rfl
  have hpassword' : (password.wanted ≠ [] → used.credentials.password = password.wanted) ↔
      password.Clear := by
    rw [← orEnvironment_fill_eq_iff]
    by_cases hnone : password.wanted = []
    · refine iff_of_true (fun hsome => absurd hnone hsome) ?_
      exact (orEnvironment_fill_eq_nil.mpr hnone).trans hnone.symm
    · have hsome := hpassword (fun h => hnone (orEnvironment_fill_eq_nil.mp h))
      rw [hsome]
      exact ⟨fun h => h hnone, fun h _ => h⟩
  rw [huser', htoken', hpassphrase, hpassword']
  exact ⟨fun h => ⟨h.1, h.2.1, h.2.2.1, h.2.2.2.2⟩, fun h => ⟨h.1, h.2.1, h.2.2.1, hcaFile, h.2.2.2⟩⟩

def sampleFile : Bytes := Lines.join 10 [ascii "user = carol", ascii "password = pw",
  ascii "cacert = ca.crt", ascii "keyfile = key"]

def sampleSurroundings (vars : List (Bytes × Bytes)) : Surroundings where
  getenv name := vars.lookup name
  files path := if path = ascii "/w/pcs.conf" then .readable sampleFile else .missing
  currentPath := ascii "/w"
  typed := none

theorem settings_fill_gaps_cacert :
    ∃ used, main (sampleSurroundings [(ascii "PCS_CACERT", ascii "env.crt")]) [ascii "list"] =
        .ok used ∧
      used.credentials.user = ascii "carol" ∧ used.trust.caFile = ascii "env.crt" := by
  have hsettings : ((load (sampleSurroundings []).files [ascii "/w/pcs.conf"] [] []).toOption.map
      fun s => s.get (ascii "user")) = some (ascii "carol") := by decide +kernel
  cases hload : load (sampleSurroundings []).files [ascii "/w/pcs.conf"] [] [] with
  | error reason =>
    rw [hload] at hsettings
    cases hsettings
  | ok settings =>
    rw [hload] at hsettings
    have huser : settings.get (ascii "user") = ascii "carol" := Option.some.inj hsettings
    have hmain : ((main (sampleSurroundings [(ascii "PCS_CACERT", ascii "env.crt")])
        [ascii "list"]).toOption.isSome) = true := by decide +kernel
    cases hused : main (sampleSurroundings [(ascii "PCS_CACERT", ascii "env.crt")])
        [ascii "list"] with
    | error code =>
      rw [hused] at hmain
      cases hmain
    | ok used =>
      obtain ⟨huser', -, -, hcaFile, -⟩ := (settings_fill_gaps_iff
        (show parseArguments [ascii "list"] { options := { workDir := ascii "/w" } } =
          some { options := { workDir := ascii "/w" }, positional := [ascii "list"] } from rfl)
        hload hused).mpr ⟨.inr (.inl rfl), .inr (.inl rfl), .inr (.inl rfl), .inr (.inl rfl)⟩
      refine ⟨used, rfl, huser'.trans huser, hcaFile.trans rfl⟩

/-- The file wins over the environment for the account and for the passphrase. -/
theorem settings_win :
    ((main (sampleSurroundings [(ascii "PCS_USER", ascii "alice"),
        (ascii "PCS_PASSPHRASE", ascii "secret")]) [ascii "list"]).toOption.map fun used =>
      (used.credentials.user, passphraseSource (sampleSurroundings [(ascii "PCS_USER",
        ascii "alice"), (ascii "PCS_PASSPHRASE", ascii "secret")]).getenv used.key)) =
      some (ascii "carol", .keyfile (ascii "key")) := by
  decide +kernel

end Main

end PersonalCloud
