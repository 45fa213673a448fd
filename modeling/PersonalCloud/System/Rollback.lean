import PersonalCloud.System.Accounts

/-! The account operations of one store, on its list in memory and on the file. Each changes the
list in memory first and takes the change back when the file cannot be replaced. -/
namespace PersonalCloud

open UserStore Passwd Accounts

namespace Rollback

/-- What a call finds: the salt of a new verifier, the day, and what local storage does while the
file is replaced. -/
structure SaveEnv where
  salt : Bytes
  today : Day
  opens : Bool
  writes : ℕ → FileEvent
  flush : FileEvent
  renames : Bool
  removes : Bool

structure AccountStore where
  verifiers : Verifiers
  files : Inodes AccountFile UInt8

def saveLocked (fs : Inodes AccountFile UInt8) (m : Verifiers) (env : SaveEnv) :
    Except String Unit × Inodes AccountFile UInt8 :=
  if env.opens = false then (.error "cannot write", fs)
  else
    let made := fs.create .new
    let lines := (saveLines m env.today).map fun line => line ++ [10]
    let out := (OutStream.opened.writeAll env.writes 0 lines).flush env.flush
    let written := made.1.modify made.2 fun _ => out.disk
    if out.good = false then (.error "write failed for", written)
    else
      match if env.renames then written.rename .new .users else none with
      | none => (.error "cannot replace", if env.removes then written.remove .new else written)
      | some fs => (.ok (), fs)

def loadLocked (s : AccountStore) : Except String Unit × AccountStore :=
  ((load (s.files.read .users)).map fun _ => (),
    { s with verifiers := listOf (s.files.read .users) })

/-- Saves the changed list; a failure undoes the change. -/
def saveOrUndo (s : AccountStore) (changed : Verifiers) (undo : Verifiers → Verifiers)
    (env : SaveEnv) : Except String Unit × AccountStore :=
  let saved := saveLocked s.files changed env
  match saved.1 with
  | .error e => (.error e, ⟨undo changed, saved.2⟩)
  | .ok () => (.ok (), ⟨changed, saved.2⟩)

def add (C : Crypto) (s : AccountStore) (name password : Bytes) (env : SaveEnv) :
    Except String Unit × AccountStore :=
  match UserStore.add s.verifiers name password
      (hashPassword C env.salt password Config.kPasswordIterations) with
  | .error e => (.error e, s)
  | .ok changed => saveOrUndo s changed (fun m => m.erase name) env

/-- An empty verifier is stored too, and undone without a save and without an error text. -/
def setPassword (C : Crypto) (s : AccountStore) (name password : Bytes) (env : SaveEnv) :
    Except String Unit × AccountStore :=
  if password.length < 8 then (.error "password must be at least 8 characters", s)
  else
    match s.verifiers.lookup name with
    | none => (.error "no such user", s)
    | some previous =>
        let verifier := hashPassword C env.salt password Config.kPasswordIterations
        let changed := s.verifiers.insert name verifier
        if verifier = [] then (.error "", { s with verifiers := changed.insert name previous })
        else saveOrUndo s changed (fun m => m.insert name previous) env

def remove (s : AccountStore) (name : Bytes) (env : SaveEnv) :
    Except String Unit × AccountStore :=
  match s.verifiers.lookup name with
  | none => (.error "no such user", s)
  | some previous => saveOrUndo s (s.verifiers.erase name) (fun m => m.insert name previous) env

inductive AccountCall where
  | add (name password : Bytes)
  | setPassword (name password : Bytes)
  | remove (name : Bytes)

def AccountCall.perform (C : Crypto) (s : AccountStore) (env : SaveEnv) :
    AccountCall → Except String Unit × AccountStore
  | .add name password => Rollback.add C s name password env
  | .setPassword name password => Rollback.setPassword C s name password env
  | .remove name => Rollback.remove s name env

/-- The same change as a command asks for it. -/
def AccountCall.command (env : SaveEnv) : AccountCall → AccountCommand
  | .add name password => ⟨.useradd, name, some password, env.salt, env.today⟩
  | .setPassword name password => ⟨.passwd, name, some password, env.salt, env.today⟩
  | .remove name => ⟨.userdel, name, none, env.salt, env.today⟩

/-- What happens to a store. Other processes may have changed the files between two calls. -/
inductive Event where
  | load
  | call (c : AccountCall) (env : SaveEnv)
  | others (files : Inodes AccountFile UInt8)

def step (C : Crypto) (s : AccountStore) : Event → AccountStore
  | .load => (loadLocked s).2
  | .call c env => (c.perform C s env).2
  | .others files => { s with files }

def start (files : Inodes AccountFile UInt8) : AccountStore := ⟨∅, files⟩

theorem saveLocked_spec (fs : Inodes AccountFile UInt8) (m : Verifiers) (env : SaveEnv) :
    match (saveLocked fs m env).1 with
    | .error _ => (saveLocked fs m env).2.read .users = fs.read .users
    | .ok () => (saveLocked fs m env).2.read .users = some (saveText m env.today) := by
  have hname : AccountFile.users ≠ .new := by decide
  have hnames : (fs.create .new).1.names .users ≠ some (fs.create .new).2 :=
    Inodes.names_ne hname (Inodes.create_names fs .new)
  have hwritten (f : Bytes → Bytes) :
      ((fs.create .new).1.modify (fs.create .new).2 f).read .users = fs.read .users := by
    rw [Inodes.read_modify_of_ne _ hnames, Inodes.create_read_ne hname]
  unfold saveLocked
  cases hopens : env.opens with
  | false => simp only [↓reduceIte]
  | true =>
    simp only [Bool.true_eq_false, ↓reduceIte]
    set lines := (saveLines m env.today).map fun line => line ++ [10] with hlines
    set out := (OutStream.opened.writeAll env.writes 0 lines).flush env.flush
    set written := (fs.create .new).1.modify (fs.create .new).2 fun _ => out.disk
    cases hgood : out.good with
    | false => simp only [↓reduceIte, hwritten, written]
    | true =>
      simp only [Bool.true_eq_false, ↓reduceIte]
      cases hrename : if env.renames then written.rename .new .users else none with
      | none =>
        dsimp only
        split_ifs
        · rw [Inodes.read_remove_ne hname, hwritten]
        · exact hwritten _
      | some fs' =>
        have hbefore := (OutStream.good_of_flush hgood).1
        have hdisk : out.disk = saveText m env.today := by
          rw [(OutStream.flush_disk hgood).1,
            OutStream.writeAll_append OutStream.opened_atEnd hbefore, hlines, ← List.flatMap_def]
          rfl
        split_ifs at hrename
        have hnew : written.read .new = some out.disk :=
          Inodes.read_eq_some.mpr ⟨_, Inodes.create_names _ _, Function.update_self ..⟩
        rw [← hdisk, ← hnew]
        exact Inodes.rename_read hrename

/-- The call fails before it has saved anything, or it saves the list that the command asks for and
knows how to undo that. -/
def Attempt (C : Crypto) (c : AccountCommand) (s : AccountStore) (env : SaveEnv)
    (out : Except String Unit × AccountStore) : Prop :=
  (∃ e m, out = (.error e, ⟨m, s.files⟩) ∧ ∀ n, m.lookup n = s.verifiers.lookup n) ∨
  ∃ changed undo, change C c s.verifiers = some changed ∧
    (∀ n, (undo changed).lookup n = s.verifiers.lookup n) ∧ out = saveOrUndo s changed undo env

section Calls

variable (C : Crypto) (s : AccountStore) (env : SaveEnv) (name password : Bytes)

theorem attempt_fail (c : AccountCommand) (e : String) : Attempt C c s env (.error e, s) :=
  .inl ⟨e, s.verifiers, rfl, fun _ => rfl⟩

theorem lookup_put_back {m changed : Verifiers} {name previous : Bytes}
    (hprevious : m.lookup name = some previous)
    (hchanged : ∀ n, n ≠ name → changed.lookup n = m.lookup n) (n : Bytes) :
    (changed.insert name previous).lookup n = m.lookup n := by
  by_cases hn : n = name
  · rw [hn, AList.lookup_insert, hprevious]
  · rw [AList.lookup_insert_ne hn, hchanged n hn]

theorem add_attempt : Attempt C ((AccountCall.add name password).command env) s env
    (add C s name password env) := by
  unfold add
  cases hadd : UserStore.add s.verifiers name password
      (hashPassword C env.salt password Config.kPasswordIterations) with
  | error e => exact attempt_fail ..
  | ok changed =>
    right
    refine ⟨changed, fun m => m.erase name, ?_, fun n => ?_, rfl⟩
    · simp only [change, AccountCall.command, AccountCommand.verifier, Option.bind_some,
        Option.getD_some, hadd]
      rfl
    · obtain ⟨-, -, hnone, -, rfl⟩ := add_eq_ok hadd
      by_cases hn : n = name
      · rw [hn, AList.lookup_erase, hnone]
      · rw [AList.lookup_erase_ne hn, AList.lookup_insert_ne hn]

theorem setPassword_attempt : Attempt C ((AccountCall.setPassword name password).command env) s env
    (setPassword C s name password env) := by
  unfold setPassword
  by_cases hlength : password.length < 8
  · rw [if_pos hlength]
    exact attempt_fail ..
  rw [if_neg hlength]
  cases hprevious : s.verifiers.lookup name with
  | none => exact attempt_fail ..
  | some previous =>
    have hback (v : Bytes) := lookup_put_back hprevious fun n hn =>
      @AList.lookup_insert_ne _ _ _ n name v s.verifiers hn
    by_cases hempty : hashPassword C env.salt password Config.kPasswordIterations = []
    · left
      simp only [hempty, ↓reduceIte]
      exact ⟨_, _, rfl, hback []⟩
    · right
      simp only [hempty, ↓reduceIte]
      refine ⟨_, _, ?_, hback _, rfl⟩
      simp [change, AccountCall.command, AccountCommand.verifier, UserStore.setPassword, hlength,
        hprevious, hempty, Except.toOption]

theorem remove_attempt : Attempt C ((AccountCall.remove name).command env) s env
    (remove s name env) := by
  unfold remove
  cases hprevious : s.verifiers.lookup name with
  | none => exact attempt_fail ..
  | some previous =>
    right
    refine ⟨_, _, ?_, lookup_put_back hprevious fun n hn => AList.lookup_erase_ne hn, rfl⟩
    simp [change, AccountCall.command, UserStore.remove, hprevious, Except.toOption]

theorem perform_attempt (c : AccountCall) :
    Attempt C (c.command env) s env (c.perform C s env) := by
  cases c with
  | add name password => exact add_attempt C s env name password
  | setPassword name password => exact setPassword_attempt C s env name password
  | remove name => exact remove_attempt C s env name

end Calls

/-- A failed call has changed neither the list nor the file. After a call that succeeds the list
says of the named account what the call has made of it, and of every other what it said before;
and the file is loaded as that list. -/
def Atomic (C : Crypto) (c : AccountCall) (env : SaveEnv) (s : AccountStore) : Prop :=
  let out := c.perform C s env
  let named := c.command env
  match out.1 with
  | .error _ => (∀ n, out.2.verifiers.lookup n = s.verifiers.lookup n) ∧
      out.2.files.read .users = s.files.read .users
  | .ok () => (∀ n, out.2.verifiers.lookup n =
        if n = named.name then named.result C else s.verifiers.lookup n) ∧
      (loadLocked out.2).1 = .ok () ∧
      ∀ n, (loadLocked out.2).2.verifiers.lookup n = out.2.verifiers.lookup n

variable {C : Crypto} {s : AccountStore} {c : AccountCall} {env : SaveEnv}

theorem saveOrUndo_atomic {changed : Verifiers} {undo : Verifiers → Verifiers}
    (hchanged : Changed C (c.command env) (fun n => s.verifiers.lookup n) changed)
    (hundo : ∀ n, (undo changed).lookup n = s.verifiers.lookup n)
    (hperform : c.perform C s env = saveOrUndo s changed undo env) : Atomic C c env s := by
  have hsave := saveLocked_spec s.files changed env
  simp only [Atomic, hperform, saveOrUndo]
  cases hresult : (saveLocked s.files changed env).1 with
  | error e =>
    simp only [hresult] at hsave
    exact ⟨hundo, hsave⟩
  | ok done =>
    simp only [hresult] at hsave
    obtain ⟨m, hload, hlookup⟩ := load_saveText hchanged.1 env.today
    refine ⟨hchanged.2, ?_, fun n => ?_⟩
    · simp only [loadLocked, hsave, hload]
      rfl
    · simp only [loadLocked, hsave, listOf, hload]
      exact hlookup n

theorem atomic_of_wellFormed (h : WellFormed s.verifiers) : Atomic C c env s := by
  rcases perform_attempt C s env c with
    ⟨e, m, hperform, hsame⟩ | ⟨changed, undo, hchange, hundo, hperform⟩
  · simp only [Atomic, hperform]
    exact ⟨hsame, trivial⟩
  · exact saveOrUndo_atomic (changed_of_change h (fun _ => rfl) hchange) hundo hperform

theorem wellFormed_step (h : WellFormed s.verifiers) (e : Event) :
    WellFormed (step C s e).verifiers := by
  cases e with
  | load => exact wellFormed_listOf _
  | others files => exact h
  | call c env =>
    rcases perform_attempt C s env c with
      ⟨e, m, hperform, hsame⟩ | ⟨changed, undo, hchange, hundo, hperform⟩
    · simp only [step, hperform]
      exact h.congr hsame
    · simp only [step, hperform, saveOrUndo]
      split
      · exact h.congr hundo
      · exact (changed_of_change h (fun _ => rfl) hchange).1

/-- Account changes are atomic in memory and on disk: in every store that loads and earlier calls
lead to, whatever other processes do to the files in between, and whatever fails during the call. -/
theorem calls_atomic (C : Crypto) (files : Inodes AccountFile UInt8) (es : List Event)
    (c : AccountCall) (env : SaveEnv) : Atomic C c env (Machine.run (step C) (start files) es) := by
  have hwell := Machine.inv_run_all (I := fun s => WellFormed s.verifiers)
    (fun s e hs => wellFormed_step (C := C) hs e) (s := start files) wellFormed_empty es
  exact atomic_of_wellFormed hwell

def sampleEnv (renames : Bool) : SaveEnv where
  salt := List.replicate 16 0
  today := (sampleCommands true).today
  opens := true
  writes _ := .accept 0
  flush := .accept 0
  renames := renames
  removes := true

example :
    let c := AccountCall.add (ascii "ann") (ascii "password")
    (c.perform sampleCrypto (start noFiles) (sampleEnv true)).1.isOk = true ∧
      (c.perform sampleCrypto (start noFiles) (sampleEnv false)).1.isOk = false := by
  decide +kernel

end Rollback

end PersonalCloud
