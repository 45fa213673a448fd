import PersonalCloud.Library.Machine
import PersonalCloud.Library.Stamped
import PersonalCloud.Server.Users

/-! A server that answers from its copy of the account list while other processes replace the file.
The stamp is read to see whether the file has changed, read again and recorded, and then the file is
read; a replacement can come between any two of these. -/
namespace PersonalCloud

open UserStore

namespace Reload

/-- The account file with its versions. Without a file there is neither stamp nor text. -/
abbrev AccountsFile (τ : Type*) := Stamped.Cell (Option τ) (Option Bytes)

/-- A call of `verify` or `exists`, and the version of the file at its beginning. -/
structure Call where
  name : Bytes
  begun : ℕ

inductive CallPc (τ : Type*) where
  | statting
  | comparing (stamp : Option τ)
  | recording
  | opening
  | reading (text : Option Bytes)
  | deciding

/-- What a call has found under its name. -/
structure Decision where
  name : Bytes
  begun : ℕ
  found : Option Bytes
  deriving DecidableEq

/-- `loaded` is `none` before the first load and after a failed one; no file has that stamp. A call
of `load` has no `Call`, since it decides nothing. -/
structure ServerRun (τ : Type*) where
  file : AccountsFile τ
  loaded : Option τ
  verifiers : Verifiers
  waiting : List Call
  inside : Option (Option Call × CallPc τ)
  decided : List Decision

/-- An account command of another process replaces the file, a call begins, a call or a `load` gets
the mutex, or the one that has it makes its next step. -/
inductive Event (τ : Type*) where
  | replace (stamp : τ) (text : Bytes)
  | begins (name : Bytes)
  | enters (k : ℕ)
  | loads
  | advance

variable {τ : Type*}

def Decision.of (verifiers : Verifiers) (c : Call) : Decision :=
  ⟨c.name, c.begun, verifiers.lookup c.name⟩

/-- One step of `reload_if_changed_locked` and `load_locked`, and the lookup behind them. -/
def advance [DecidableEq τ] (x : ServerRun τ) (c : Option Call) : CallPc τ → ServerRun τ
  | .statting => { x with inside := some (c, .comparing x.file.stamp) }
  | .comparing stamp =>
      if stamp = none ∨ stamp = x.loaded then { x with inside := some (c, .deciding) }
      else { x with inside := some (c, .recording) }
  | .recording =>
      { x with loaded := x.file.stamp, verifiers := ∅, inside := some (c, .opening) }
  -- an open file stays the same file when another one is put in its place
  | .opening => { x with inside := some (c, .reading x.file.value) }
  | .reading text => { x with verifiers := listOf text, inside := some (c, .deciding) }
  | .deciding =>
      { x with
        inside := none
        decided := (c.map (Decision.of x.verifiers)).toList ++ x.decided }

def step [DecidableEq τ] (x : ServerRun τ) : Event τ → ServerRun τ
  | .replace stamp text => { x with file := x.file.replace (some stamp) (some text) }
  | .begins name => { x with waiting := ⟨name, x.file.version⟩ :: x.waiting }
  | .enters k =>
      match x.inside, x.waiting[k]? with
      | none, some c =>
          { x with waiting := x.waiting.eraseIdx k, inside := some (some c, .statting) }
      | _, _ => x
  | .loads =>
      match x.inside with
      | none => { x with inside := some (none, .recording) }
      | some _ => x
  | .advance =>
      match x.inside with
      | none => x
      | some (c, pc) => advance x c pc

def start : ServerRun τ := ⟨⟨(none, none), []⟩, none, ∅, [], none, []⟩

/-- A new file has a stamp that no earlier one had. -/
def FreshStamp (x : ServerRun τ) : Event τ → Prop
  | .replace stamp _ => some stamp ∉ x.file.stamps
  | _ => True

instance [DecidableEq τ] (x : ServerRun τ) : ∀ e, Decidable (FreshStamp x e)
  | .replace stamp _ => inferInstanceAs (Decidable (some stamp ∉ x.file.stamps))
  | .begins _ | .enters _ | .loads | .advance => inferInstanceAs (Decidable True)

/-- The list is that of a version of the file, and of the present one as long as the recorded stamp
is still on the file. -/
def ListOfVersion (file : AccountsFile τ) (loaded : Option τ) (verifiers : Verifiers) (n : ℕ) :
    Prop :=
  (∃ text, file.valueAt n = some text ∧ verifiers = listOf text) ∧
    file.While loaded (n = file.version)

/-- What is known of a call, which began at version `begun`, at each of its steps. -/
def CallPc.Sound (x : ServerRun τ) (begun : ℕ) : CallPc τ → Prop
  | statting => ∃ n, ListOfVersion x.file x.loaded x.verifiers n
  | comparing stamp => ∃ n, ListOfVersion x.file x.loaded x.verifiers n ∧
      (stamp = none ∨ stamp = x.loaded → begun ≤ n)
  | recording => True
  | opening => x.loaded ∈ x.file.stamps
  | reading text => ∃ n, begun ≤ n ∧ x.file.valueAt n = some text ∧
      x.file.While x.loaded (n = x.file.version)
  | deciding => ∃ n, begun ≤ n ∧ ListOfVersion x.file x.loaded x.verifiers n

def begun (c : Option Call) : ℕ := (c.map Call.begun).getD 0

def Inside (x : ServerRun τ) : Option (Option Call × CallPc τ) → Prop
  | none => ∃ n, ListOfVersion x.file x.loaded x.verifiers n
  | some (c, pc) => begun c ≤ x.file.version ∧ pc.Sound x (begun c)

/-- The decision was taken by the list of a version not older than the call. -/
def Decision.UpToDate (file : AccountsFile τ) (d : Decision) : Prop :=
  ∃ n text, d.begun ≤ n ∧ file.valueAt n = some text ∧ d.found = (listOf text).lookup d.name

structure Inv (x : ServerRun τ) : Prop where
  missing : x.file.stamp = none → x.file.version = 0
  waiting : ∀ c ∈ x.waiting, c.begun ≤ x.file.version
  inside : Inside x x.inside
  decided : ∀ d ∈ x.decided, d.UpToDate x.file

variable {x : ServerRun τ} {file : AccountsFile τ} {loaded : Option τ} {verifiers : Verifiers}
  {n : ℕ}

theorem ListOfVersion.replace (h : ListOfVersion file loaded verifiers n) {stamp : τ}
    (hfresh : some stamp ∉ file.stamps) (text : Bytes) :
    ListOfVersion (file.replace (some stamp) (some text)) loaded verifiers n := by
  obtain ⟨⟨old, hold, hlist⟩, hloaded⟩ := h
  exact ⟨⟨old, Stamped.Cell.valueAt_replace hold _ _, hlist⟩, hloaded.replace hfresh _⟩

theorem Decision.UpToDate.replace {d : Decision} (h : d.UpToDate file) (stamp : Option τ)
    (text : Option Bytes) : d.UpToDate (file.replace stamp text) := by
  obtain ⟨n, old, hle, hold, hfound⟩ := h
  exact ⟨n, old, hle, Stamped.Cell.valueAt_replace hold _ _, hfound⟩

theorem CallPc.Sound.replace {pc : CallPc τ} {b : ℕ} (h : pc.Sound x b) {stamp : τ}
    (hfresh : some stamp ∉ x.file.stamps) (text : Bytes) :
    pc.Sound { x with file := x.file.replace (some stamp) (some text) } b := by
  cases pc with
  | statting =>
    obtain ⟨n, hlist⟩ := h
    exact ⟨n, hlist.replace hfresh text⟩
  | comparing s =>
    obtain ⟨n, hlist, hle⟩ := h
    exact ⟨n, hlist.replace hfresh text, hle⟩
  | recording => trivial
  | opening => exact List.mem_cons_of_mem _ h
  | reading t =>
    obtain ⟨n, hle, hvalue, hloaded⟩ := h
    exact ⟨n, hle, Stamped.Cell.valueAt_replace hvalue _ _, hloaded.replace hfresh _⟩
  | deciding =>
    obtain ⟨n, hle, hlist⟩ := h
    exact ⟨n, hle, hlist.replace hfresh text⟩

theorem inv_start : Inv (start : ServerRun τ) where
  missing _ := rfl
  waiting c hc := by simp [start] at hc
  inside := ⟨0, ⟨none, rfl, rfl⟩, Stamped.Cell.while_stamp rfl⟩
  decided d hd := by simp [start] at hd

variable [DecidableEq τ]

theorem Inv.replace (h : Inv x) {stamp : τ} (hfresh : some stamp ∉ x.file.stamps) (text : Bytes) :
    Inv (step x (.replace stamp text)) := by
  constructor
  · intro hnone
    contradiction
  · exact fun c hc => (h.waiting c hc).trans (Nat.le_succ _)
  · have hinside := h.inside
    simp only [step]
    cases hx : x.inside with
    | none =>
      rw [hx] at hinside
      obtain ⟨n, hlist⟩ := hinside
      exact ⟨n, hlist.replace hfresh text⟩
    | some call =>
      rw [hx] at hinside
      exact ⟨hinside.1.trans (Nat.le_succ _), hinside.2.replace hfresh text⟩
  · exact fun d hd => (h.decided d hd).replace _ _

/-- A step of the call that has the mutex, from what is known of it to what is known of it next. -/
theorem Inv.advance (h : Inv x) {c : Option Call} {pc : CallPc τ} (hx : x.inside = some (c, pc)) :
    Inv (advance x c pc) := by
  have hinside := h.inside
  rw [hx] at hinside
  obtain ⟨hbegun, hsound⟩ := hinside
  cases pc with
  | statting =>
    obtain ⟨n, hlist⟩ := hsound
    refine ⟨h.missing, h.waiting, ⟨hbegun, n, hlist, fun hstamp => ?_⟩, h.decided⟩
    rcases hstamp with hnone | hloaded
    · rw [h.missing hnone] at hbegun
      exact hbegun.trans (Nat.zero_le n)
    · exact hbegun.trans (hlist.2.2 hloaded).ge
  | comparing stamp =>
    obtain ⟨n, hlist, hle⟩ := hsound
    simp only [Reload.advance]
    split_ifs with hstamp
    · exact ⟨h.missing, h.waiting, ⟨hbegun, n, hle hstamp, hlist⟩, h.decided⟩
    · exact ⟨h.missing, h.waiting, ⟨hbegun, trivial⟩, h.decided⟩
  | recording =>
    exact ⟨h.missing, h.waiting, ⟨hbegun, x.file.stamp_mem_stamps⟩, h.decided⟩
  | opening =>
    have hvalue := x.file.valueAt_version
    exact ⟨h.missing, h.waiting, ⟨hbegun, x.file.version, hbegun, hvalue, hsound, fun _ => rfl⟩,
      h.decided⟩
  | reading text =>
    obtain ⟨n, hle, hvalue, hloaded⟩ := hsound
    exact ⟨h.missing, h.waiting, ⟨hbegun, n, hle, ⟨text, hvalue, rfl⟩, hloaded⟩, h.decided⟩
  | deciding =>
    obtain ⟨n, hle, hlist⟩ := hsound
    refine ⟨h.missing, h.waiting, ⟨n, hlist⟩, fun d hd => ?_⟩
    rcases List.mem_append.mp hd with hd | hd
    · obtain ⟨call, rfl, rfl⟩ := Option.map_eq_some_iff.mp (Option.mem_toList.mp hd)
      obtain ⟨⟨text, hvalue, heq⟩, -⟩ := hlist
      exact ⟨n, text, hle, hvalue, congrArg (AList.lookup call.name) heq⟩
    · exact h.decided d hd

theorem Inv.step (h : Inv x) {e : Event τ} (he : FreshStamp x e) : Inv (step x e) := by
  cases e with
  | replace stamp text => exact h.replace he text
  | begins name =>
    refine ⟨h.missing, fun c hc => ?_, h.inside, h.decided⟩
    rcases List.mem_cons.mp hc with rfl | hc
    · exact le_rfl
    · exact h.waiting c hc
  | enters k =>
    simp only [Reload.step]
    split
    · next c hinside hc =>
      have hlist := h.inside
      rw [hinside] at hlist
      refine ⟨h.missing, fun c' hc' => h.waiting c' (List.mem_of_mem_eraseIdx hc'), ?_, h.decided⟩
      exact ⟨h.waiting c (List.mem_of_getElem? hc), hlist⟩
    · exact h
  | loads =>
    simp only [Reload.step]
    split
    · exact ⟨h.missing, h.waiting, ⟨Nat.zero_le _, trivial⟩, h.decided⟩
    · exact h
  | advance =>
    simp only [Reload.step]
    split
    · exact h
    · next c pc hinside => exact h.advance hinside

/-- A running server notices every account change: whatever the order of replacements and steps,
each call decides by the list of a version at least as new as the one that was in place when it
began. -/
theorem decisions_upToDate {es : List (Event τ)}
    (hfresh : Machine.Along step FreshStamp (start : ServerRun τ) es) :
    ∀ d ∈ (Machine.run step start es).decided, d.UpToDate (Machine.run step start es).file := by
  have hinv : Inv (Machine.run step (start : ServerRun τ) es) :=
    Machine.inv_run (I := Inv) (fun x e hx he => hx.step he) inv_start hfresh
  exact hinv.decided

def annaText : Bytes :=
  Lines.join 10 [ascii "pcs-users 1", ascii "user anna first 2026-01-01"]

def bothText : Bytes :=
  Lines.join 10 [ascii "pcs-users 1", ascii "user anna second 2026-01-02",
    ascii "user ben third 2026-01-02"]

def sampleRun : List (Event ℕ) :=
  [Event.replace 1 annaText, .loads] ++ List.replicate 4 Event.advance ++
    [Event.begins (ascii "anna"), .enters 0, .advance, .replace 2 bothText, .begins (ascii "ben"),
      .advance, .advance, .enters 0] ++ List.replicate 6 Event.advance

theorem decisions_upToDate_sample :
    (Machine.run step start sampleRun).decided =
      [⟨ascii "ben", 2, some (ascii "third")⟩, ⟨ascii "anna", 1, some (ascii "first")⟩] ∧
    ∀ d ∈ (Machine.run step start sampleRun).decided,
      d.UpToDate (Machine.run step start sampleRun).file := by
  have hfresh : Machine.Along step FreshStamp start sampleRun := by decide +kernel
  exact ⟨by decide +kernel, decisions_upToDate hfresh⟩

end Reload

end PersonalCloud
