import PersonalCloud.Library.OutStream
import PersonalCloud.Server.WebUi

/-! Uploads and downloads in the steps between which other connections can act: each pass of a
copying loop, each open, and each section under the store's mutex. -/
namespace PersonalCloud

open Store

namespace Transfer

/-- The handler that receives a body, with the account, name and tag it was asked for. -/
inductive PutKind where
  | putFile (user name tag : Bytes)
  | webPut (user name query : Bytes)
  | putChunk (id : Bytes)

def PutKind.isWeb : PutKind → Bool
  | webPut .. => true
  | _ => false

def PutKind.final : PutKind → Option Path
  | putFile user name _ => filePath user name
  | webPut user name _ => if isSafeName name then filePath user name else none
  | putChunk id => chunkPath id

/-- What follows the rename under the same lock; a chunk has no sidecar. -/
def PutKind.tagSteps (now : ℤ) (o : FileWrite) : PutKind → List DiskStep
  | putFile user name tag => writeTag now o user name tag
  | webPut user name query => writeTag now o user name (WebUi.queryTag query)
  | putChunk _ => []

/-- An upload: the announced size, the random part of the temporary name, and all that arrives
behind the request. Where that is less than the announced size, the connection drops. -/
structure PutRequest where
  kind : PutKind
  size : ℕ
  random : Bytes
  incoming : Bytes

def PutRequest.body (r : PutRequest) : Bytes := r.incoming.take r.size

structure PutEnv where
  now : ℤ
  opens : Bool := true
  file : FileEvent := .accept 0
  renames : Bool := true
  tag : FileWrite := .done

structure PutEnv.Sound (e : PutEnv) : Prop where
  opens : e.opens = true
  file : e.file.ok = true
  renames : e.renames = true

/-- Where an upload stands. At the end the client has been told that it succeeded or failed, or
the connection was closed without a word. -/
inductive PutPc where
  | opening
  | receiving (final : Path) (got : ℕ) (out : OutStream UInt8)
  | storing (final : Path)
  | finished (told : Option Bool)
  deriving DecidableEq

/-- A write through an open handle, which shows under the name as long as the name is there. -/
def throughHandle (d : Disk) (p : Path) (node : FileNode) : List DiskStep :=
  if (d.lookup p).isSome then [.write p node] else []

/-- One step of an upload. The web handler looks at its stream only after the flush and then still
answers; the others stop at the first failed write. -/
def putStep (r : PutRequest) (d : Disk) (e : PutEnv) : PutPc → List DiskStep × PutPc
  | .opening =>
      match r.kind.final with
      | none => ([], .finished (some false))
      | some final =>
          if e.opens then ([.write (tempPath r.random) ⟨[], e.now⟩], .receiving final 0 .opened)
          else (if r.kind.isWeb then [] else [.remove (tempPath r.random)], .finished none)
  | .receiving final got out =>
      let want := min Config.kIoBufferSize (r.size - got)
      if want = 0 then
        let out := out.flush e.file
        if out.good then
          (throughHandle d (tempPath r.random) ⟨out.disk, e.now⟩, .storing final)
        else
          ([.remove (tempPath r.random)], .finished (if r.kind.isWeb then some false else none))
      else if r.incoming.length < got + want then
        ([.remove (tempPath r.random)], .finished none)
      else
        let out := out.write e.file ((r.incoming.drop got).take want)
        if out.good || r.kind.isWeb then
          (throughHandle d (tempPath r.random) ⟨out.disk, e.now⟩, .receiving final (got + want) out)
        else ([.remove (tempPath r.random)], .finished none)
  | .storing final =>
      if e.renames && (d.lookup (tempPath r.random)).isSome then
        (.rename (tempPath r.random) final :: r.kind.tagSteps e.now e.tag, .finished (some true))
      else ([.remove (tempPath r.random)], .finished (some false))
  | .finished told => ([], .finished told)

inductive GetKind where
  | getFile (user name : Bytes)
  | webGet (user name : Bytes)
  | getChunk (id : Bytes)

def GetKind.path : GetKind → Option Path
  | getFile user name => filePath user name
  | webGet user name => filePath user name
  | getChunk id => chunkPath id

def GetKind.isWeb : GetKind → Bool
  | webGet .. => true
  | _ => false

structure GetEnv where
  /-- The size query, the open or the read of a block succeeds. -/
  works : Bool := true
  sends : Bool := true

/-- Where a download stands; at the end the bytes behind the announcement if all of them went
out. -/
inductive GetPc where
  | measuring
  | opening (path : Path) (size : ℕ)
  | sending (content : Bytes) (size : ℕ) (sent : Bytes)
  | finished (delivered : Option Bytes)
  deriving DecidableEq

/-- One step of a download. A file below `files` or `chunks` is only ever replaced, never written
in place, so an open file keeps the content that was found when it was opened. -/
def getStep (k : GetKind) (d : Disk) (e : GetEnv) : GetPc → GetPc
  | .measuring =>
      match k.path with
      | none => .finished none
      | some path =>
          match d.content path with
          | none => .finished none
          | some content => if e.works then .opening path content.length else .finished none
  | .opening path size =>
      -- only the web handler looks whether its announcement went out
      if k.isWeb && !e.sends then .finished none
      else
        match d.content path with
        | none => .finished none
        | some content => if e.works then .sending content size [] else .finished none
  | .sending content size sent =>
      let want := min Config.kIoBufferSize (size - sent.length)
      if want = 0 then .finished (some sent)
      else
        let block := (content.drop sent.length).take want
        if e.works && e.sends && decide (block.length = want) then
          .sending content size (sent ++ block)
        else .finished none
  | .finished delivered => .finished delivered

/-- A path under which the content of a file or a chunk is kept. -/
def IsStored (p : Path) : Prop :=
  (∃ user name, filePath user name = some p) ∨ ∃ id, chunkPath id = some p

theorem chunkPath_eq_some {id : Bytes} {p : Path} :
    chunkPath id = some p ↔ isSafeChunkId id = true ∧ p = [kChunksDir, id] := by
  unfold chunkPath
  split_ifs with h
  · simp [h, eq_comm]
  · simp [h]

theorem IsStored.ne_temp {p : Path} (h : IsStored p) (random : Bytes) : p ≠ tempPath random := by
  have hdir : kChunksDir ≠ kTmpDir := by decide
  rcases h with ⟨user, name, h⟩ | ⟨id, h⟩
  · exact (tempPath_ne_filePath h).symm
  · obtain ⟨-, rfl⟩ := chunkPath_eq_some.mp h
    simp [tempPath, hdir]

theorem IsStored.ne_tag {p : Path} (h : IsStored p) (user name : Bytes) :
    p ≠ tagPath user name := by
  rcases h with ⟨_, _, h⟩ | ⟨id, h⟩
  · exact filePath_ne_tagPath h
  · obtain ⟨-, rfl⟩ := chunkPath_eq_some.mp h
    simp [tagPath]

theorem PutKind.isStored {k : PutKind} {p : Path} (h : k.final = some p) : IsStored p := by
  cases k with
  | putFile user name tag => exact .inl ⟨user, name, h⟩
  | webPut user name query =>
    simp only [PutKind.final] at h
    split_ifs at h
    exact .inl ⟨user, name, h⟩
  | putChunk id => exact .inr ⟨id, h⟩

theorem tempPath_inj {a b : Bytes} (h : tempPath a = tempPath b) : a = b := by
  simpa [tempPath] using h

theorem content_run_tagSteps (k : PutKind) (d : Disk) (now : ℤ) (o : FileWrite) {p : Path}
    (h : IsStored p ∨ ∃ random, p = tempPath random) :
    (d.run (k.tagSteps now o)).content p = d.content p := by
  have hne (user name : Bytes) : p ≠ tagPath user name := by
    rcases h with h | ⟨random, rfl⟩
    · exact h.ne_tag user name
    · exact tempPath_ne_tagPath
  cases k with
  | putFile user name tag => exact content_run_writeTag_ne now o (hne user name)
  | webPut user name query => exact content_run_writeTag_ne now o (hne user name)
  | putChunk id => rfl

variable {r : PutRequest} {d d' : Disk} {e : PutEnv} {pc : PutPc}

/-- What is known of an upload and of its temporary file, if that is still there. -/
def PutPc.Sound (r : PutRequest) (d : Disk) : PutPc → Prop
  | opening => True
  | receiving final got out =>
      r.kind.final = some final ∧ got ≤ r.size ∧ got ≤ r.incoming.length ∧
      (out.good = true → out.AtEnd ∧ out.view = r.incoming.take got) ∧
      (d.content (tempPath r.random)).getD out.disk = out.disk
  | storing final =>
      r.kind.final = some final ∧ r.size ≤ r.incoming.length ∧
      (d.content (tempPath r.random)).getD r.body = r.body
  | finished told => told = some true → r.kind.final.isSome ∧ r.size ≤ r.incoming.length

theorem PutPc.Sound.mono (h : pc.Sound r d)
    (hd : d'.content (tempPath r.random) = d.content (tempPath r.random) ∨
      d'.content (tempPath r.random) = none) : pc.Sound r d' := by
  cases pc with
  | opening => trivial
  | receiving final got out =>
    obtain ⟨hfinal, hsize, hgot, hgood, htemp⟩ := h
    refine ⟨hfinal, hsize, hgot, hgood, ?_⟩
    rcases hd with hd | hd
    · rwa [hd]
    · rw [hd, Option.getD_none]
  | storing final =>
    obtain ⟨hfinal, hsize, htemp⟩ := h
    refine ⟨hfinal, hsize, ?_⟩
    rcases hd with hd | hd
    · rwa [hd]
    · rw [hd, Option.getD_none]
  | finished told => exact h

theorem throughHandle_onTemp (d : Disk) (random : Bytes) (node : FileNode) :
    ∀ st ∈ throughHandle d (tempPath random) node, st.OnTemp random := by
  unfold throughHandle
  split_ifs
  · exact fun st hst => .inl ⟨node, List.mem_singleton.mp hst⟩
  · simp

theorem content_run_throughHandle (d : Disk) (p : Path) (node : FileNode) :
    (d.run (throughHandle d p node)).content p = (d.content p).map fun _ => node.content := by
  unfold throughHandle
  split_ifs with h
  · obtain ⟨old, hold⟩ := Option.isSome_iff_exists.mp h
    simp [Disk.run, Disk.content, hold, DiskStep.apply]
  · have hnone : d.lookup p = none := by simpa using h
    simp [Disk.run, Disk.content, hnone]

/-- An upload replaces its file by the complete body, or it touches no file but its temporary one
and does not report success. -/
theorem putStep_cases (h : pc.Sound r d) :
    (∃ final now tag, pc = .storing final ∧ r.kind.final = some final ∧
      r.size ≤ r.incoming.length ∧ d.content (tempPath r.random) = some r.body ∧
      (putStep r d e pc).1 = .rename (tempPath r.random) final :: r.kind.tagSteps now tag ∧
      (putStep r d e pc).2 = .finished (some true)) ∨
    ((∀ st ∈ (putStep r d e pc).1, st.OnTemp r.random) ∧
      ((putStep r d e pc).2 = .finished (some true) → pc = .finished (some true))) := by
  have hremove : ∀ st ∈ [DiskStep.remove (tempPath r.random)], st.OnTemp r.random :=
    fun st hst => .inr (List.mem_singleton.mp hst)
  cases pc with
  | opening =>
    right
    simp only [putStep]
    split
    · simp
    · split_ifs
      · exact ⟨fun st hst => .inl ⟨_, List.mem_singleton.mp hst⟩, by simp⟩
      · simp
      · exact ⟨hremove, by simp⟩
  | receiving final got out =>
    right
    simp only [putStep]
    split_ifs
    · exact ⟨throughHandle_onTemp _ _ _, by simp⟩
    · exact ⟨hremove, by simp⟩
    · exact ⟨hremove, by simp⟩
    · exact ⟨hremove, by simp⟩
    · exact ⟨throughHandle_onTemp _ _ _, by simp⟩
    · exact ⟨hremove, by simp⟩
  | storing final =>
    obtain ⟨hfinal, hsize, htemp⟩ := h
    simp only [putStep]
    split_ifs with hrename
    · left
      obtain ⟨node, hnode⟩ := Option.isSome_iff_exists.mp (Bool.and_eq_true_iff.mp hrename).2
      have hcontent : d.content (tempPath r.random) = some node.content := by
        rw [Disk.content, hnode, Option.map_some]
      rw [hcontent, Option.getD_some] at htemp
      exact ⟨final, e.now, e.tag, rfl, hfinal, hsize, htemp ▸ hcontent, rfl, rfl⟩
    · exact .inr ⟨hremove, by simp⟩
  | finished told => exact .inr ⟨by simp [putStep], fun h => h⟩

theorem putStep_sound (h : pc.Sound r d) :
    (putStep r d e pc).2.Sound r (d.run (putStep r d e pc).1) := by
  have hwritten (node : FileNode) :
      ((d.run (throughHandle d (tempPath r.random) node)).content (tempPath r.random)).getD
        node.content = node.content := by
    rw [content_run_throughHandle]
    cases d.content (tempPath r.random) <;> rfl
  cases pc with
  | opening =>
    simp only [putStep]
    split
    · simp [PutPc.Sound]
    · next final hfinal =>
      split_ifs
      · refine ⟨hfinal, Nat.zero_le _, Nat.zero_le _, fun _ => ⟨OutStream.opened_atEnd, rfl⟩, ?_⟩
        simp [Disk.run, OutStream.opened]
      · simp [PutPc.Sound]
      · simp [PutPc.Sound]
  | receiving final got out =>
    obtain ⟨hfinal, hsize, hgot, hgood, htemp⟩ := h
    simp only [putStep]
    split_ifs with hdone hflush hweb hshort hnext
    · -- the loop is over and the flush has gone through, so the file is the body
      obtain ⟨hdisk, -, -⟩ := OutStream.flush_disk hflush
      have hbuffer : 0 < Config.kIoBufferSize := by decide
      have hall : got = r.size := by omega
      have hview := (hgood (OutStream.good_of_flush hflush).1).2
      refine ⟨hfinal, hall ▸ hgot, ?_⟩
      have hbody : (out.flush e.file).disk = r.body := by
        rw [hdisk, hview, hall, PutRequest.body]
      rw [← hbody]
      exact hwritten ⟨_, e.now⟩
    · simp [PutPc.Sound]
    · simp [PutPc.Sound]
    · simp [PutPc.Sound]
    · refine ⟨hfinal, by omega, by omega, ?_, hwritten ⟨_, e.now⟩⟩
      intro hout
      obtain ⟨hend, hview⟩ := hgood (OutStream.good_of_write hout).1
      obtain ⟨hview', hend'⟩ := OutStream.write_append hend hout
      refine ⟨hend', ?_⟩
      rw [hview', hview, List.take_add]
    · simp [PutPc.Sound]
  | storing final =>
    obtain ⟨hfinal, hsize, -⟩ := h
    simp only [putStep]
    split_ifs
    · exact fun _ => ⟨by rw [hfinal]; rfl, hsize⟩
    · simp [PutPc.Sound]
  | finished told => exact h

/-- The open of a download ends it, or takes the content that is there. -/
theorem getStep_opening (k : GetKind) (d : Disk) (e : GetEnv) (path : Path) (size : ℕ) :
    getStep k d e (.opening path size) = .finished none ∨
    ∃ content, d.content path = some content ∧ e.works = true ∧
      getStep k d e (.opening path size) = .sending content size [] := by
  simp only [getStep]
  by_cases hsends : (k.isWeb && !e.sends) = true
  · exact .inl (if_pos hsends)
  · rw [if_neg hsends]
    split
    · exact .inl rfl
    · next content hcontent =>
      split_ifs with hworks
      · exact .inr ⟨content, hcontent, hworks, rfl⟩
      · exact .inl rfl

end Transfer

end PersonalCloud
