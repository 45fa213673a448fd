import PersonalCloud.Client.Watch
import PersonalCloud.Library.Machine
import PersonalCloud.Library.Stamped

/-! The watch command over files that are edited while it runs. The size, the modification time and
the pieces of the plaintext are read one after the other, and an edit can come between any two of
them. -/
namespace PersonalCloud

/-- The content of a file; sizes stay in the range of file offsets. -/
structure Content where
  bytes : Bytes
  length_lt : bytes.length < 2 ^ 63

abbrev WatchedFile := Stamped.Cell Int64 Content

def WatchedFile.bytes (f : WatchedFile) : Bytes := f.value.bytes

def WatchedFile.size (f : WatchedFile) : UInt64 := UInt64.ofNat f.bytes.length

/-- Where the loop is: between two files, after the size was read, after the time was read, and then
in the upload: before the size is read again, before the file is opened, while it is sealed, while
the stream is sent, and before the file is recorded. -/
inductive WatchPc where
  | idle
  | sized (name : Bytes) (size : UInt64)
  | timed (name : Bytes) (now : Seen)
  | sealing (name : Bytes) (now : Seen)
  | opening (name : Bytes) (now : Seen) (plainSize : UInt64)
  /-- `live` says that the open file is still the one under its name. -/
  | reading (name : Bytes) (now : Seen) (plainSize : UInt64) (live : Bool) (plain : Bytes)
  | uploading (name : Bytes) (now : Seen) (plain : Bytes)
  | recording (name : Bytes) (now : Seen)

structure WatchRun where
  files : Bytes → WatchedFile
  state : WatchState
  /-- The plaintext that was read by the last successful upload of a name. -/
  uploaded : Bytes → Option Bytes
  pc : WatchPc

/-- An edit, in place or by putting another file under the name, or a step of the loop: the file
that comes next, whether the step succeeds, how many bytes are read, and what the open file holds
when it is no longer the one under its name. -/
inductive WatchEvent where
  | edit (name : Bytes) (content : Content) (modified : Int64) (replaces : Bool)
  | loop (next : Bytes) (ok : Bool) (count : ℕ) (elsewhere : Bytes)

def WatchPc.detach (name : Bytes) : WatchPc → WatchPc
  | reading n now plainSize live plain =>
      reading n now plainSize (live && decide (n ≠ name)) plain
  | pc => pc

/-- One step of the loop of `cmd_watch` and of the upload it calls. -/
def loopStep (next : Bytes) (ok : Bool) (count : ℕ) (elsewhere : Bytes) (x : WatchRun) : WatchRun :=
  match x.pc with
  | .idle =>
      if isSafeName next = false then x
      else { x with pc := .sized next (x.files next).size }
  | .sized name size => { x with pc := .timed name ⟨size, (x.files name).stamp⟩ }
  | .timed name now =>
      if x.state.unchanged name now then { x with pc := .idle }
      else { x with pc := .sealing name now }
  | .sealing name now =>
      if ok = false then { x with pc := .idle }
      else { x with pc := .opening name now (x.files name).size }
  | .opening name now plainSize =>
      if ok = false then { x with pc := .idle }
      else { x with pc := .reading name now plainSize true [] }
  | .reading name now plainSize live plain =>
      if ok = false then { x with pc := .idle }
      else if plainSize.toNat ≤ plain.length then { x with pc := .uploading name now plain }
      else
        -- a piece of a block, or all of it
        let want := min count (plainSize.toNat - plain.length)
        let source := if live then (x.files name).bytes else elsewhere
        let got := (source.drop plain.length).take want
        if got.length ≠ want then { x with pc := .idle }
        else { x with pc := .reading name now plainSize live (plain ++ got) }
  | .uploading name now plain =>
      if ok = false then { x with pc := .idle }
      else { x with
        uploaded := Function.update x.uploaded name (some plain)
        pc := .recording name now }
  | .recording name now => { x with state := x.state.record name now, pc := .idle }

def watchStep (x : WatchRun) : WatchEvent → WatchRun
  | .edit name content modified replaces =>
      { x with
        files := Function.update x.files name ((x.files name).replace modified content)
        pc := if replaces then x.pc.detach name else x.pc }
  | .loop next ok count elsewhere => loopStep next ok count elsewhere x

/-- An edit gives its file a modification time that the file never had. -/
def FreshEdit (x : WatchRun) : WatchEvent → Prop
  | .edit name _ modified _ => modified ∉ (x.files name).stamps
  | .loop _ _ _ _ => True

instance (x : WatchRun) : ∀ e, Decidable (FreshEdit x e)
  | .edit name _ modified _ => inferInstanceAs (Decidable (modified ∉ (x.files name).stamps))
  | .loop _ _ _ _ => inferInstanceAs (Decidable True)

def WatchPc.seen : WatchPc → Option (Bytes × Seen)
  | idle | sized _ _ => none
  | timed name now | sealing name now | opening name now _ | reading name now _ _ _
  | uploading name now _ | recording name now => some (name, now)

/-- What has come of the upload when the file was not edited. -/
def WatchPc.Expects (f : WatchedFile) (uploaded : Option Bytes) : WatchPc → Prop
  | opening _ _ plainSize => plainSize = f.size
  | reading _ _ plainSize live plain => live = true ∧ plainSize = f.size ∧ plain <+: f.bytes
  | uploading _ _ plain => plain = f.bytes
  | recording _ _ => uploaded = some f.bytes
  | idle | sized _ _ | timed _ _ | sealing _ _ => True

/-- The invariant of the loop for one file: an entry whose time is that of the file stands for its
content, and a visit that began after it has read the same time. -/
structure Watched (name : Bytes) (x : WatchRun) : Prop where
  visit : ∀ now, x.pc.seen = some (name, now) →
    (x.files name).While now.modified (x.pc.Expects (x.files name) (x.uploaded name))
  entry : ∀ seen, x.state.lookup name = some seen → (x.files name).While seen.modified
    (x.uploaded name = some (x.files name).bytes ∧
      ∀ now, x.pc.seen = some (name, now) → now.modified = seen.modified)

variable {name : Bytes} {x : WatchRun}

theorem seen_detach (other : Bytes) (pc : WatchPc) : (pc.detach other).seen = pc.seen := by
  cases pc <;> rfl

theorem detach_of_ne {other : Bytes} {pc : WatchPc} {now : Seen} (h : pc.seen = some (name, now))
    (hne : name ≠ other) : pc.detach other = pc := by
  cases pc with
  | reading n now' plainSize live plain =>
    obtain ⟨rfl, -⟩ := Prod.mk.inj (Option.some.inj h)
    simp [WatchPc.detach, hne]
  | _ => rfl

theorem Watched.edit (h : Watched name x) {other : Bytes} {content : Content} {modified : Int64}
    {replaces : Bool} (hfresh : modified ∉ (x.files other).stamps) :
    Watched name (watchStep x (.edit other content modified replaces)) := by
  have hseen : (watchStep x (.edit other content modified replaces)).pc.seen = x.pc.seen := by
    simp only [watchStep]
    split_ifs
    · exact seen_detach other x.pc
    · rfl
  by_cases hne : name = other
  · subst hne
    have hfile : (watchStep x (.edit name content modified replaces)).files name =
        (x.files name).replace modified content := by simp [watchStep]
    constructor
    · intro now hnow
      rw [hfile]
      exact (h.visit now (hseen ▸ hnow)).replace hfresh content
    · intro seen hlookup
      rw [hfile]
      exact (h.entry seen hlookup).replace hfresh content
  · have hfile : (watchStep x (.edit other content modified replaces)).files name =
        x.files name := by simp [watchStep, hne]
    constructor
    · intro now hnow
      have hpc : (watchStep x (.edit other content modified replaces)).pc = x.pc := by
        simp only [watchStep]
        rw [detach_of_ne (hseen ▸ hnow) hne, ite_self]
      rw [hfile, hpc]
      exact h.visit now (hseen ▸ hnow)
    · intro seen hlookup
      rw [hfile, hseen]
      exact h.entry seen hlookup

theorem Watched.move (h : Watched name x) {pc : WatchPc}
    (hnext : ∀ now, pc.seen = some (name, now) → x.pc.seen = some (name, now) ∧
      (x.pc.Expects (x.files name) (x.uploaded name) →
        pc.Expects (x.files name) (x.uploaded name))) :
    Watched name { x with pc := pc } := by
  constructor
  · intro now hnow
    obtain ⟨hseen, hexpects⟩ := hnext now hnow
    exact (h.visit now hseen).imp fun _ => hexpects
  · intro seen hlookup
    refine (h.entry seen hlookup).imp fun _ hentry => ⟨hentry.1, fun now hnow => ?_⟩
    exact hentry.2 now (hnext now hnow).1

theorem Watched.leave (h : Watched name x) : Watched name { x with pc := .idle } :=
  h.move fun _ hnow => by contradiction

theorem toNat_size (f : WatchedFile) : f.size.toNat = f.bytes.length :=
  UInt64.toNat_ofNat_of_lt' (f.value.length_lt.trans (by decide))

theorem prefix_read {content plain : Bytes} (h : plain <+: content) (k : ℕ) :
    plain ++ (content.drop plain.length).take k <+: content := by
  obtain ⟨rest, rfl⟩ := h
  rw [List.drop_left]
  exact (List.prefix_append_right_inj plain).mpr (List.take_prefix k rest)

theorem Watched.time (h : Watched name x) {n : Bytes} {size : UInt64} (hpc : x.pc = .sized n size) :
    Watched name { x with pc := .timed n ⟨size, (x.files n).stamp⟩ } := by
  have hidle : ∀ now, x.pc.seen ≠ some (name, now) := by simp [hpc, WatchPc.seen]
  constructor
  · intro now hnow
    obtain ⟨rfl, rfl⟩ := Prod.mk.inj (Option.some.inj hnow)
    exact Stamped.Cell.while_stamp trivial
  · intro seen hlookup
    refine (h.entry seen hlookup).imp fun hstamp hentry => ⟨hentry.1, fun now hnow => ?_⟩
    obtain ⟨rfl, rfl⟩ := Prod.mk.inj (Option.some.inj hnow)
    exact hstamp

theorem Watched.upload (h : Watched name x) {n plain : Bytes} {now : Seen}
    (hpc : x.pc = .uploading n now plain) :
    Watched name { x with
      uploaded := Function.update x.uploaded n (some plain)
      pc := .recording n now } := by
  by_cases hn : n = name
  · subst hn
    have hvisit := h.visit now (by rw [hpc]; rfl)
    rw [hpc] at hvisit
    constructor
    · intro now' hnow
      obtain ⟨-, rfl⟩ := Prod.mk.inj (Option.some.inj hnow)
      refine hvisit.imp fun _ hplain => ?_
      have hplain' : plain = (x.files n).bytes := hplain
      simp [WatchPc.Expects, hplain']
    · intro seen hlookup
      refine (h.entry seen hlookup).imp fun hstamp hentry => ?_
      have htime := hentry.2 now (by rw [hpc]; rfl)
      have hplain : plain = (x.files n).bytes := hvisit.2 (hstamp.trans htime.symm)
      refine ⟨by simp [hplain], fun now' hnow => ?_⟩
      obtain ⟨-, rfl⟩ := Prod.mk.inj (Option.some.inj hnow)
      exact htime
  · have hother : ∀ now', (WatchPc.recording n now).seen ≠ some (name, now') := by
      simp [WatchPc.seen, hn]
    have huploaded : Function.update x.uploaded n (some plain) name = x.uploaded name :=
      Function.update_of_ne (Ne.symm hn) _ _
    constructor
    · exact fun now' hnow => absurd hnow (hother now')
    · intro seen hlookup
      exact (h.entry seen hlookup).imp fun _ hentry =>
        ⟨huploaded.trans hentry.1, fun now' hnow => absurd hnow (hother now')⟩

theorem Watched.record (h : Watched name x) {n : Bytes} {now : Seen}
    (hpc : x.pc = .recording n now) :
    Watched name { x with state := x.state.record n now, pc := .idle } := by
  have hidle : ∀ now', WatchPc.idle.seen ≠ some (name, now') := by simp [WatchPc.seen]
  by_cases hn : n = name
  · subst hn
    have hvisit := h.visit now (by rw [hpc]; rfl)
    rw [hpc] at hvisit
    constructor
    · exact fun now' hnow => absurd hnow (hidle now')
    · intro seen hlookup
      rw [WatchState.record, AList.lookup_insert, Option.some.injEq] at hlookup
      rw [← hlookup]
      exact hvisit.imp fun _ hrecorded => ⟨hrecorded, fun now' hnow => absurd hnow (hidle now')⟩
  · constructor
    · exact fun now' hnow => absurd hnow (hidle now')
    · intro seen hlookup
      rw [WatchState.record, AList.lookup_insert_ne (Ne.symm hn)] at hlookup
      exact (h.entry seen hlookup).imp fun _ hentry =>
        ⟨hentry.1, fun now' hnow => absurd hnow (hidle now')⟩

theorem Watched.loop (h : Watched name x) (next : Bytes) (ok : Bool) (count : ℕ)
    (elsewhere : Bytes) : Watched name (loopStep next ok count elsewhere x) := by
  unfold loopStep
  split
  · next hpc =>
    split_ifs
    · exact h
    · exact h.move fun _ hnow => by contradiction
  · next n size hpc => exact h.time hpc
  · next n now hpc =>
    split_ifs
    · exact h.leave
    · exact h.move fun _ hnow => ⟨by rw [hpc]; exact hnow, fun _ => trivial⟩
  · next n now hpc =>
    split_ifs
    · exact h.leave
    · refine h.move fun _ hnow => ⟨by rw [hpc]; exact hnow, fun _ => ?_⟩
      obtain ⟨rfl, -⟩ := Prod.mk.inj (Option.some.inj hnow)
      rfl
  · next n now plainSize hpc =>
    split_ifs
    · exact h.leave
    · refine h.move fun _ hnow => ⟨by rw [hpc]; exact hnow, fun hsize => ?_⟩
      rw [hpc] at hsize
      exact ⟨rfl, hsize, List.nil_prefix⟩
  · next n now plainSize live plain hpc =>
    dsimp only
    generalize hsource : (if live then (x.files n).bytes else elsewhere) = source
    split_ifs with hok hdone hshort
    · exact h.leave
    · refine h.move fun _ hnow => ⟨by rw [hpc]; exact hnow, fun hread => ?_⟩
      rw [hpc] at hread
      obtain ⟨-, rfl, hprefix⟩ := hread
      rw [toNat_size] at hdone
      exact hprefix.eq_of_length_le hdone
    · exact h.leave
    · refine h.move fun _ hnow => ⟨by rw [hpc]; exact hnow, fun hread => ?_⟩
      obtain ⟨rfl, -⟩ := Prod.mk.inj (Option.some.inj hnow)
      rw [hpc] at hread
      obtain ⟨rfl, hsize, hprefix⟩ := hread
      rw [if_pos rfl] at hsource
      rw [← hsource]
      exact ⟨rfl, hsize, prefix_read hprefix _⟩
  · next n now plain hpc =>
    split_ifs
    · exact h.leave
    · exact h.upload hpc
  · next n now hpc => exact h.record hpc

theorem Watched.step (h : Watched name x) {e : WatchEvent} (he : FreshEdit x e) :
    Watched name (watchStep x e) := by
  cases e with
  | edit other content modified replaces => exact h.edit he
  | loop next ok count elsewhere => exact h.loop next ok count elsewhere

/-- The watcher misses no edit: in whatever way edits and the steps of the loop follow one another,
as long as the entry of a file is its size and time, the last upload of the file has read its
content. -/
theorem no_edit_missed {x : WatchRun} (hidle : x.pc = .idle) {name : Bytes}
    (hnew : x.state.lookup name = none) {es : List WatchEvent}
    (hfresh : Machine.Along watchStep FreshEdit x es) :
    let y := Machine.run watchStep x es
    y.state.lookup name = some ⟨(y.files name).size, (y.files name).stamp⟩ →
      y.uploaded name = some (y.files name).bytes := by
  have hstart : Watched name x := by
    constructor
    · intro now hnow
      rw [hidle] at hnow
      contradiction
    · intro seen hlookup
      rw [hnew] at hlookup
      contradiction
  intro y hentry
  have hwatched : Watched name y :=
    Machine.inv_run (I := Watched name) (fun x e hx he => hx.step he) hstart hfresh
  exact ((hwatched.entry _ hentry).2 rfl).1

def sampleFolder : WatchRun where
  files _ := ⟨(1, ⟨[65], by decide⟩), []⟩
  state := ∅
  uploaded _ := none
  pc := .idle

/-- The file is edited before it is read on its first visit, and uploaded again on the second. -/
def sampleWatch : List WatchEvent :=
  let go : WatchEvent := .loop (ascii "a") true 1 []
  List.replicate 4 go ++ [.edit (ascii "a") ⟨[66, 67], by decide⟩ 2 false] ++ List.replicate 15 go

theorem no_edit_missed_sample :
    (Machine.run watchStep sampleFolder sampleWatch).state.lookup (ascii "a") = some ⟨2, 2⟩ ∧
    (Machine.run watchStep sampleFolder sampleWatch).uploaded (ascii "a") = some [66, 67] := by
  have hfresh : Machine.Along watchStep FreshEdit sampleFolder sampleWatch := by decide +kernel
  have hentry : (Machine.run watchStep sampleFolder sampleWatch).state.lookup (ascii "a") =
      some ⟨2, 2⟩ := by decide +kernel
  have hfile : ((Machine.run watchStep sampleFolder sampleWatch).files (ascii "a")).size = 2 ∧
      ((Machine.run watchStep sampleFolder sampleWatch).files (ascii "a")).stamp = 2 ∧
      ((Machine.run watchStep sampleFolder sampleWatch).files (ascii "a")).bytes = [66, 67] := by
    decide +kernel
  obtain ⟨hsize, hstamp, hbytes⟩ := hfile
  have hlast := no_edit_missed rfl rfl hfresh (by rw [hentry, hsize, hstamp])
  exact ⟨hentry, hbytes ▸ hlast⟩

end PersonalCloud
