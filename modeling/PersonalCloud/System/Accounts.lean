import PersonalCloud.Library.Inodes
import PersonalCloud.Library.Machine
import PersonalCloud.Library.OutStream
import PersonalCloud.Server.Users

/-! Two account commands, run as separate processes on one account list. Each reads the whole list,
asks for a password, and writes the whole list anew. -/
namespace PersonalCloud

open UserStore Passwd

namespace Accounts

/-- The account list and the sibling file it is rewritten through. -/
inductive AccountFile where
  | users
  | new
  deriving DecidableEq

inductive CommandKind where
  | useradd
  | passwd
  | userdel
  deriving DecidableEq

/-- A command, with the answer its prompt gets, its random salt and the day it saves on. There is no
answer when the two entries do not match. -/
structure AccountCommand where
  kind : CommandKind
  name : Bytes
  password : Option Bytes
  salt : Bytes
  today : Day

def AccountCommand.verifier (C : Crypto) (c : AccountCommand) : Bytes :=
  hashPassword C c.salt (c.password.getD []) Config.kPasswordIterations

/-- What the list says of the name once the command has succeeded. -/
def AccountCommand.result (C : Crypto) (c : AccountCommand) : Option Bytes :=
  match c.kind with
  | .userdel => none
  | .useradd | .passwd => some (c.verifier C)

/-- The list the command will save. -/
def change (C : Crypto) (c : AccountCommand) (m : Verifiers) : Option Verifiers :=
  match c.kind with
  | .userdel => (remove m c.name).toOption
  | .useradd => c.password.bind fun p => (add m c.name p (c.verifier C)).toOption
  | .passwd => c.password.bind fun p => (setPassword m c.name p (c.verifier C)).toOption

inductive AccountPc where
  | loading
  | prompting (m : Verifiers)
  | creating (m : Verifiers)
  | writing (handle : ℕ) (todo : List Bytes) (out : OutStream UInt8)
  | replacing
  | finished (success : Bool)
  deriving DecidableEq

structure AccountEnv where
  works : Bool := true
  file : FileEvent := .accept 0

/-- One step of a command. The stream writes through its handle, whatever has become of the name,
and is looked at only after the flush. -/
def accountStep (C : Crypto) (c : AccountCommand) (fs : Inodes AccountFile UInt8)
    (e : AccountEnv) : AccountPc → Inodes AccountFile UInt8 × AccountPc
  | .loading =>
      match load (fs.read .users) with
      | .error _ => (fs, .finished false)
      | .ok m => (fs, .prompting m)
  | .prompting m =>
      match change C c m with
      | none => (fs, .finished false)
      | some m => (fs, .creating m)
  | .creating m =>
      if e.works then
        ((fs.create .new).1, .writing (fs.create .new).2 (saveLines m c.today) .opened)
      else (fs, .finished false)
  | .writing i (line :: todo) out =>
      let out := { out with disk := fs.content i }.write e.file (line ++ [10])
      (fs.modify i fun _ => out.disk, .writing i todo out)
  | .writing i [] out =>
      let out := { out with disk := fs.content i }.flush e.file
      (fs.modify i fun _ => out.disk, if out.good then .replacing else .finished false)
  | .replacing =>
      match if e.works then fs.rename .new .users else none with
      | none => (fs.remove .new, .finished false)
      | some fs => (fs, .finished true)
  | .finished success => (fs, .finished success)

def AccountPc.succeeded : AccountPc → Bool
  | finished success => success
  | _ => false

def AccountPc.UnderWay : AccountPc → Prop
  | loading | finished _ => False
  | _ => True

instance : ∀ pc, Decidable (AccountPc.UnderWay pc)
  | .loading | .finished _ => inferInstanceAs (Decidable False)
  | .prompting _ | .creating _ | .writing .. | .replacing => inferInstanceAs (Decidable True)

structure State where
  files : Inodes AccountFile UInt8
  pcs : Bool → AccountPc

/-- Which of the two commands makes its next step. -/
abbrev Event := Bool × AccountEnv

def start (fs : Inodes AccountFile UInt8) : State := ⟨fs, fun _ => .loading⟩

def step (C : Crypto) (c : Bool → AccountCommand) (s : State) (ev : Event) : State :=
  let x := accountStep C (c ev.1) s.files ev.2 (s.pcs ev.1)
  ⟨x.1, Function.update s.pcs ev.1 x.2⟩

/-- No command reads the list while the other has read it and is not over. -/
def ReadsAlone (s : State) (ev : Event) : Prop :=
  s.pcs ev.1 = .loading → ¬ (s.pcs !ev.1).UnderWay

instance (s : State) (ev : Event) : Decidable (ReadsAlone s ev) :=
  inferInstanceAs (Decidable (s.pcs ev.1 = .loading → ¬ (s.pcs !ev.1).UnderWay))

variable {C : Crypto} {c : AccountCommand}

def Changed (C : Crypto) (c : AccountCommand) (cur : Bytes → Option Bytes) (m : Verifiers) : Prop :=
  WellFormed m ∧ ∀ n, m.lookup n = if n = c.name then c.result C else cur n

theorem changed_of_change {m m' : Verifiers} {cur : Bytes → Option Bytes} (hm : WellFormed m)
    (hcur : ∀ n, m.lookup n = cur n) (h : change C c m = some m') : Changed C c cur m' := by
  have hinsert (hname : isValidUsername c.name = true) (hverifier : c.verifier C ≠ [])
      (hresult : c.result C = some (c.verifier C)) :
      Changed C c cur (m.insert c.name (c.verifier C)) := by
    refine ⟨hm.insert hname (isWord_hashPassword hverifier)
      (hashPassword_not_mem _ _ _ _ (.inr rfl)), fun n => ?_⟩
    split_ifs with hn
    · rw [hn, AList.lookup_insert, hresult]
    · rw [AList.lookup_insert_ne hn, hcur n]
  have hsome {r : Except String Verifiers} (h : r.toOption = some m') : r = .ok m' := by
    cases r with
    | error e => simp [Except.toOption] at h
    | ok m => rw [Option.some.inj h]
  unfold change at h
  split at h
  · next hkind =>
    obtain ⟨-, rfl⟩ := remove_eq_ok (hsome h)
    refine ⟨hm.erase _, fun n => ?_⟩
    split_ifs with hn
    · rw [hn, AList.lookup_erase, AccountCommand.result, hkind]
    · rw [AList.lookup_erase_ne hn, hcur n]
  · next hkind =>
    obtain ⟨p, hp, h⟩ := Option.bind_eq_some_iff.mp h
    obtain ⟨hname, -, -, hempty, rfl⟩ := add_eq_ok (hsome h)
    exact hinsert hname hempty (by rw [AccountCommand.result, hkind])
  · next hkind =>
    obtain ⟨p, hp, h⟩ := Option.bind_eq_some_iff.mp h
    obtain ⟨-, ⟨v, hv⟩, hempty, rfl⟩ := setPassword_eq_ok (hsome h)
    exact hinsert (hm _ _ hv).1 hempty (by rw [AccountCommand.result, hkind])

/-- What is known of a command that has the list to itself; `cur` is what the list says now. -/
def AccountPc.Sound (C : Crypto) (c : AccountCommand) (fs : Inodes AccountFile UInt8)
    (cur : Bytes → Option Bytes) : AccountPc → Prop
  | loading | finished _ => True
  | prompting m => WellFormed m ∧ ∀ n, m.lookup n = cur n
  | creating m => Changed C c cur m
  | writing i todo out => ∃ m, Changed C c cur m ∧ fs.names .new = some i ∧
      fs.content i = out.disk ∧
      (out.good = true → out.AtEnd ∧ out.view ++ Lines.join 10 todo = saveText m c.today)
  | replacing => ∃ m, Changed C c cur m ∧ fs.read .new = some (saveText m c.today)

theorem accountStep_writing {fs : Inodes AccountFile UInt8} {cur : Bytes → Option Bytes}
    {i : ℕ} {todo : List Bytes} {out : OutStream UInt8} (e : AccountEnv)
    (h : (AccountPc.writing i todo out).Sound C c fs cur) :
    (accountStep C c fs e (.writing i todo out)).1.read .users = fs.read .users ∧
    (accountStep C c fs e (.writing i todo out)).2.succeeded = false ∧
    (accountStep C c fs e (.writing i todo out)).2.Sound C c
      (accountStep C c fs e (.writing i todo out)).1 cur := by
  obtain ⟨m', hchanged, hi, hcontent, hgood⟩ := h
  have hnames : fs.names .users ≠ some i := Inodes.names_ne (by decide) hi
  have hsame : { out with disk := fs.content i } = out := by rw [hcontent]
  cases todo with
  | cons line todo =>
    simp only [accountStep, hsame]
    refine ⟨Inodes.read_modify_of_ne _ hnames, rfl, m', hchanged, hi, ?_, ?_⟩
    · simp [Inodes.modify]
    · intro hout
      obtain ⟨hend, htext⟩ := hgood (OutStream.good_of_write hout).1
      obtain ⟨hview, hend'⟩ := OutStream.write_append hend hout
      refine ⟨hend', ?_⟩
      rw [hview, ← htext]
      simp [Lines.join]
  | nil =>
    simp only [accountStep, hsame]
    split_ifs with hout
    · obtain ⟨hdisk, -, -⟩ := OutStream.flush_disk hout
      obtain ⟨-, htext⟩ := hgood (OutStream.good_of_flush hout).1
      refine ⟨Inodes.read_modify_of_ne _ hnames, rfl, m', hchanged, ?_⟩
      refine Inodes.read_eq_some.mpr ⟨i, hi, ?_⟩
      rw [← htext]
      simp [Inodes.modify, hdisk, Lines.join]
    · exact ⟨Inodes.read_modify_of_ne _ hnames, rfl, trivial⟩

/-- A step of a command that has the list to itself leaves the list alone, or it is the rename that
puts the changed list in place. -/
theorem accountStep_sound {fs : Inodes AccountFile UInt8} {cur : Bytes → Option Bytes}
    {m : Verifiers} {pc : AccountPc} (e : AccountEnv) (hload : load (fs.read .users) = .ok m)
    (hm : ∀ n, m.lookup n = cur n) (h : pc.Sound C c fs cur) :
    ((accountStep C c fs e pc).1.read .users = fs.read .users ∧
      (accountStep C c fs e pc).2.succeeded = pc.succeeded ∧
      (accountStep C c fs e pc).2.Sound C c (accountStep C c fs e pc).1 cur) ∨
    (pc.succeeded = false ∧ (accountStep C c fs e pc).2 = .finished true ∧
      ∃ m', load ((accountStep C c fs e pc).1.read .users) = .ok m' ∧
        ∀ n, m'.lookup n = if n = c.name then c.result C else cur n) := by
  cases pc with
  | loading =>
    simp only [accountStep, hload]
    refine .inl ⟨by trivial, rfl, wellFormed_of_load hload, hm⟩
  | prompting m =>
    simp only [accountStep]
    split
    · exact .inl ⟨rfl, rfl, trivial⟩
    · next m' hchange => exact .inl ⟨rfl, rfl, changed_of_change h.1 h.2 hchange⟩
  | creating m =>
    simp only [accountStep]
    split_ifs
    · refine .inl ⟨Inodes.create_read_ne (by decide), rfl, m, h, Inodes.create_names _ _,
        Inodes.create_content _ _, fun _ => ⟨OutStream.opened_atEnd, rfl⟩⟩
    · exact .inl ⟨rfl, rfl, trivial⟩
  | writing i todo out => exact .inl (accountStep_writing e h)
  | replacing =>
    obtain ⟨m', hchanged, hnew⟩ := h
    simp only [accountStep]
    split
    · exact .inl ⟨Inodes.read_remove_ne (by decide), rfl, trivial⟩
    · next fs' hrename =>
      have hread : fs'.read .users = some (saveText m' c.today) := by
        split_ifs at hrename
        rw [Inodes.rename_read hrename, hnew]
      obtain ⟨m'', hloaded, hsame⟩ := load_saveText hchanged.1 c.today
      refine .inr ⟨rfl, rfl, m'', ?_, fun n => ?_⟩
      · rw [hread, hloaded]
      · rw [hsame n, hchanged.2 n]
  | finished success => exact .inl ⟨rfl, rfl, trivial⟩

section Both

variable {C : Crypto} {c : Bool → AccountCommand} {m₀ : Verifiers} {s : State}

/-- What the list says after the commands that have succeeded. -/
def expected (C : Crypto) (c : Bool → AccountCommand) (pcs : Bool → AccountPc) (m₀ : Verifiers)
    (n : Bytes) : Option Bytes :=
  if (pcs false).succeeded = true ∧ n = (c false).name then (c false).result C
  else if (pcs true).succeeded = true ∧ n = (c true).name then (c true).result C
  else m₀.lookup n

theorem expected_congr {pcs pcs' : Bool → AccountPc}
    (h : ∀ b, (pcs' b).succeeded = (pcs b).succeeded) : expected C c pcs' m₀ = expected C c pcs m₀ := by
  funext n
  simp only [expected, h]

/-- The success of one command changes what is said of its name. -/
theorem expected_success (hne : (c false).name ≠ (c true).name) {pcs : Bool → AccountPc} {b : Bool}
    (n : Bytes) :
    expected C c (Function.update pcs b (.finished true)) m₀ n =
      if n = (c b).name then (c b).result C else expected C c pcs m₀ n := by
  have hfinished : (AccountPc.finished true).succeeded = true := rfl
  cases b with
  | false =>
    have htrue : Function.update pcs false (.finished true) true = pcs true :=
      Function.update_of_ne (by decide) _ _
    simp only [expected, Function.update_self, htrue, hfinished, true_and]
    by_cases hn : n = (c false).name
    · rw [if_pos hn, if_pos hn]
    · rw [if_neg hn, if_neg hn, if_neg (c := _ ∧ n = (c false).name) fun h => hn h.2]
  | true =>
    have hfalse : Function.update pcs true (.finished true) false = pcs false :=
      Function.update_of_ne (by decide) _ _
    simp only [expected, Function.update_self, hfalse, hfinished, true_and]
    by_cases hn : n = (c true).name
    · rw [if_neg (fun h => hne (h.2.symm.trans hn)), if_pos hn, if_pos hn]
    · rw [if_neg hn, if_neg hn, if_neg (c := _ ∧ n = (c true).name) fun h => hn h.2]

structure Inv (C : Crypto) (c : Bool → AccountCommand) (m₀ : Verifiers) (s : State) : Prop where
  list : ∃ m, load (s.files.read .users) = .ok m ∧ ∀ n, m.lookup n = expected C c s.pcs m₀ n
  sound : ∀ b, (s.pcs b).Sound C (c b) s.files (expected C c s.pcs m₀)
  alone : ∀ b, (s.pcs b).UnderWay → ¬ (s.pcs !b).UnderWay

/-- Where the list cannot be read, nothing happens. -/
structure Stuck (fs : Inodes AccountFile UInt8) (s : State) : Prop where
  files : s.files = fs
  idle : ∀ b, s.pcs b = .loading ∨ s.pcs b = .finished false

theorem stuck_step {fs : Inodes AccountFile UInt8} {msg : String}
    (hload : load (fs.read .users) = .error msg) (h : Stuck fs s) (ev : Event) :
    Stuck fs (step C c s ev) := by
  have hstep : accountStep C (c ev.1) s.files ev.2 (s.pcs ev.1) = (s.files, .finished false) := by
    rcases h.idle ev.1 with hpc | hpc
    · rw [hpc]
      simp only [accountStep, h.files, hload]
    · rw [hpc]
      rfl
  refine ⟨(congrArg Prod.fst hstep).trans h.files, fun b => ?_⟩
  simp only [step, hstep]
  by_cases hb : b = ev.1
  · exact .inr (by rw [hb, Function.update_self])
  · rw [Function.update_of_ne hb]
    exact h.idle b

theorem AccountPc.sound_of_not_underWay {pc : AccountPc} {c : AccountCommand}
    {fs : Inodes AccountFile UInt8} {cur : Bytes → Option Bytes} (h : ¬ pc.UnderWay) :
    pc.Sound C c fs cur := by
  cases pc with
  | loading | finished => trivial
  | prompting | creating | writing | replacing => exact absurd trivial h

theorem inv_step (hne : (c false).name ≠ (c true).name) (h : Inv C c m₀ s) {ev : Event}
    (halone : ReadsAlone s ev) : Inv C c m₀ (step C c s ev) := by
  obtain ⟨b, e⟩ := ev
  obtain ⟨m, hload, hm⟩ := h.list
  have hother : (!b) ≠ b := by cases b <;> decide
  by_cases hover : ∃ success, s.pcs b = .finished success
  · obtain ⟨success, hpc⟩ := hover
    have hsame : step C c s (b, e) = s := by
      simp only [step, hpc, accountStep]
      rw [← hpc, Function.update_eq_self]
    rwa [hsame]
  -- the other command is not between its reading and its end when this one moves
  have hidle : ¬ (s.pcs !b).UnderWay := by
    cases hpc : s.pcs b with
    | loading => exact halone hpc
    | finished success => exact absurd ⟨success, hpc⟩ hover
    | prompting | creating | writing | replacing => exact h.alone b (by rw [hpc]; trivial)
  have hpcs (pc : AccountPc) (b' : Bool) (hb : b' ≠ b) :
      Function.update s.pcs b pc b' = s.pcs !b := by
    rw [Function.update_of_ne hb, show b' = !b by cases b <;> cases b' <;> simp_all]
  have halone' (pc : AccountPc) (b' : Bool) (hup : (Function.update s.pcs b pc b').UnderWay) :
      ¬ (Function.update s.pcs b pc !b').UnderWay := by
    by_cases hb : b' = b
    · rw [hb, hpcs pc _ hother]
      exact hidle
    · rw [hpcs pc _ hb] at hup
      exact absurd hup hidle
  rcases accountStep_sound e hload hm (h.sound b) with
    ⟨hread, hsucceeded, hsound⟩ | ⟨-, hpc, m', hload', hm'⟩
  · have hexpected : expected C c (step C c s (b, e)).pcs m₀ = expected C c s.pcs m₀ := by
      refine expected_congr fun b' => ?_
      by_cases hb : b' = b
      · rw [hb, ← hsucceeded]
        exact congrArg AccountPc.succeeded (Function.update_self ..)
      · exact congrArg AccountPc.succeeded (Function.update_of_ne hb _ _)
    refine ⟨⟨m, ?_, ?_⟩, fun b' => ?_, halone' _⟩
    · exact (congrArg load hread).trans hload
    · rw [hexpected]
      exact hm
    · rw [hexpected]
      show (Function.update s.pcs b _ b').Sound C (c b') _ _
      by_cases hb : b' = b
      · rw [hb, Function.update_self]
        exact hsound
      · rw [hpcs _ _ hb]
        exact AccountPc.sound_of_not_underWay hidle
  · have hstep : (step C c s (b, e)).pcs = Function.update s.pcs b (.finished true) := by
      simp only [step, hpc]
    refine ⟨⟨m', hload', fun n => ?_⟩, fun b' => ?_, halone' _⟩
    · rw [hstep, expected_success hne n, hm' n]
    · rw [hstep]
      by_cases hb : b' = b
      · rw [hb, Function.update_self]
        trivial
      · rw [hpcs _ _ hb]
        exact AccountPc.sound_of_not_underWay hidle

/-- No account change is lost as long as neither command reads the list between the other's reading
and its end: when both report success, the list says of each of the two names what its command has
made of it, and of every other name what it said before. -/
theorem changes_kept (C : Crypto) (c : Bool → AccountCommand)
    (hne : (c false).name ≠ (c true).name) (fs : Inodes AccountFile UInt8) (es : List Event)
    (halone : Machine.Along (step C c) ReadsAlone (start fs) es)
    (hsuccess : ∀ b, ((Machine.run (step C c) (start fs) es).pcs b).succeeded = true) :
    ∃ m₀ m, load (fs.read .users) = .ok m₀ ∧
      load ((Machine.run (step C c) (start fs) es).files.read .users) = .ok m ∧
      ∀ n, m.lookup n = if n = (c false).name then (c false).result C
        else if n = (c true).name then (c true).result C else m₀.lookup n := by
  cases hload : load (fs.read .users) with
  | error msg =>
    have hstart : Stuck fs (start fs) := ⟨rfl, fun _ => .inl rfl⟩
    have hstep : ∀ s ev, Stuck fs s → Stuck fs (step C c s ev) :=
      fun s ev hs => stuck_step hload hs ev
    have hstuck := Machine.inv_run_all hstep hstart es
    have hfalse := hsuccess false
    rcases hstuck.idle false with hpc | hpc <;> rw [hpc] at hfalse <;>
      exact absurd hfalse Bool.false_ne_true
  | ok m₀ =>
    have hstart : Inv C c m₀ (start fs) :=
      ⟨⟨m₀, hload, fun n => by simp [expected, start, AccountPc.succeeded]⟩, fun _ => trivial,
        fun _ h => h.elim⟩
    have hinv := Machine.inv_run (I := Inv C c m₀) (fun s ev hs => inv_step hne hs) hstart halone
    obtain ⟨m, hm, hlookup⟩ := hinv.list
    refine ⟨m₀, m, rfl, hm, fun n => ?_⟩
    simpa only [expected, hsuccess, true_and] using hlookup n

end Both

def sampleCrypto : Crypto where
  pbkdf2 password _ _ := some ((password ++ List.replicate 32 0).take 32)
  gcmEncrypt _ _ _ _ := none
  gcmDecrypt _ _ _ _ _ := none
  hmac _ _ := []

def sampleCommands (b : Bool) : AccountCommand where
  kind := .useradd
  name := if b then ascii "bob" else ascii "ann"
  password := some (ascii "password")
  salt := List.replicate 16 0
  today := ⟨ascii "2026-01-01", by decide, by decide⟩

def noFiles : Inodes AccountFile UInt8 where
  names _ := none
  content _ := []
  next := 0
  names_lt n i h := by simp at h
  names_inj n n' i h := by simp at h

def steps (b : Bool) (n : ℕ) : List Event := List.replicate n (b, ⟨true, .accept 0⟩)

/-- What the list says of the two names at the end, and whether both commands succeeded. -/
def outcome (es : List Event) : Option (Option Bytes × Option Bytes) × Bool :=
  let s := Machine.run (step sampleCrypto sampleCommands) (start noFiles) es
  ((load (s.files.read .users)).toOption.map fun m => (m.lookup (ascii "ann"), m.lookup (ascii "bob")),
    (s.pcs false).succeeded && (s.pcs true).succeeded)

/-- One after the other. -/
theorem changes_kept_in_turn :
    ∃ m, load ((Machine.run (step sampleCrypto sampleCommands) (start noFiles)
        (steps false 7 ++ steps true 8)).files.read .users) = .ok m ∧
      (m.lookup (ascii "ann")).isSome ∧ (m.lookup (ascii "bob")).isSome := by
  have halone : Machine.Along (step sampleCrypto sampleCommands) ReadsAlone (start noFiles)
      (steps false 7 ++ steps true 8) := by decide +kernel
  have hsuccess : ∀ b, ((Machine.run (step sampleCrypto sampleCommands) (start noFiles)
      (steps false 7 ++ steps true 8)).pcs b).succeeded = true := by decide +kernel
  obtain ⟨m₀, m, -, hm, hlookup⟩ :=
    changes_kept sampleCrypto sampleCommands (by decide) noFiles _ halone hsuccess
  refine ⟨m, hm, ?_, ?_⟩
  · rw [hlookup, if_pos (by decide)]
    decide +kernel
  · rw [hlookup, if_neg (by decide), if_pos (by decide)]
    decide +kernel

/-- Both read the list before either has saved. Both report success, and the first account is
gone. -/
theorem change_lost :
    (outcome (steps false 1 ++ steps true 1 ++ steps false 6 ++ steps true 6)).1 =
      some (none, (sampleCommands true).result sampleCrypto) ∧
    (outcome (steps false 1 ++ steps true 1 ++ steps false 6 ++ steps true 6)).2 = true ∧
    ((sampleCommands false).result sampleCrypto).isSome = true := by
  decide +kernel

end Accounts

end PersonalCloud
