import PersonalCloud.Core.Protocol
import Mathlib.Data.List.AList

/-! The server's storage: the paths made from names off the network, the files below the root, and
the elementary steps in which the store changes them. -/
namespace PersonalCloud

abbrev Path := List Bytes

structure FileNode where
  content : Bytes
  /-- Seconds on the clock of the file system, whose epoch is the library's own. -/
  modified : ℤ
  deriving DecidableEq

/-- The regular files below the root. -/
abbrev Disk := AList fun _ : Path => FileNode

def Disk.content (d : Disk) (p : Path) : Option Bytes := (d.lookup p).map FileNode.content

inductive DiskStep where
  | write (p : Path) (node : FileNode)
  | rename (src dst : Path)
  | remove (p : Path)
  deriving DecidableEq

def DiskStep.apply : DiskStep → Disk → Disk
  | write p node, d => d.insert p node
  | rename src dst, d =>
      match d.lookup src with
      | none => d
      | some node => (d.erase src).insert dst node
  | remove p, d => d.erase p

def Disk.run (d : Disk) (steps : List DiskStep) : Disk := steps.foldl (fun d s => s.apply d) d

/-- Usernames become directories, so they are held to a stricter rule than file names. -/
def isValidUsername (name : Bytes) : Bool :=
  !name.isEmpty && decide (name.length ≤ 32) &&
    (name.head?.any fun c => decide (97 ≤ c) && decide (c ≤ 122)) &&
    name.all fun c => (decide (97 ≤ c) && decide (c ≤ 122)) ||
      (decide (48 ≤ c) && decide (c ≤ 57)) || c == 45 || c == 95

namespace Store

def kUsersDir : Bytes := ascii "users"
def kChunksDir : Bytes := ascii "chunks"
def kTmpDir : Bytes := ascii "tmp"
def kFilesDir : Bytes := ascii "files"
def kMetaDir : Bytes := ascii "meta"
def kTagExt : Bytes := ascii ".tag"
def kPartExt : Bytes := ascii ".part"

def accountDir (user : Bytes) : Option Path :=
  if isValidUsername user then some [kUsersDir, user] else none

/-- `none` when the user or name is not a safe component. -/
def filePath (user name : Bytes) : Option Path :=
  match accountDir user with
  | none => none
  | some base => if isSafeName name then some (base ++ [kFilesDir, name]) else none

def tagPath (user name : Bytes) : Path := [kUsersDir, user, kMetaDir, name ++ kTagExt]

def chunkPath (id : Bytes) : Option Path := if isSafeChunkId id then some [kChunksDir, id] else none

/-- Only random bytes, in hexadecimal, ever reach the file system here. -/
def tempPath (random : Bytes) : Path := [kTmpDir, random ++ kPartExt]

/-- The first line of a file, as `getline` reads it. -/
def firstLine (content : Bytes) : Bytes := content.takeWhile (· ≠ 10)

/-- The tag on record for a name; empty without a readable sidecar. -/
def tagOf (d : Disk) (user name : Bytes) : Bytes :=
  ((d.content (tagPath user name)).map firstLine).getD []

def fileInfo (d : Disk) (user name : Bytes) : Option (ℕ × Bytes) :=
  match filePath user name with
  | none => none
  | some path =>
      match d.content path with
      | none => none
      | some content => some (content.length, tagOf d user name)

/-- How the write of a file ends: it is not opened, it is cut off after some bytes, or it
completes. -/
inductive FileWrite where
  | notOpened
  | cut (k : ℕ)
  | done
  deriving DecidableEq

/-- Opening truncates the sidecar; the line follows as one write. -/
def writeTag (now : ℤ) (o : FileWrite) (user name tag : Bytes) : List DiskStep :=
  match o with
  | .notOpened => []
  | .cut k => [.write (tagPath user name) ⟨[], now⟩,
      .write (tagPath user name) ⟨(tag ++ [10]).take k, now⟩]
  | .done => [.write (tagPath user name) ⟨[], now⟩,
      .write (tagPath user name) ⟨tag ++ [10], now⟩]

/-- Which of the two removals the file system carries out. -/
structure Removal where
  file : Bool
  sidecar : Bool

def removeFile (d : Disk) (o : Removal) (user name : Bytes) : List DiskStep × Bool :=
  match filePath user name with
  | none => ([], false)
  | some path =>
      let existed := o.file && (d.lookup path).isSome
      ((if existed then [.remove path] else []) ++
        if o.sidecar then [.remove (tagPath user name)] else [], existed)

structure StoredFile where
  name : Bytes
  size : ℕ
  modified : ℤ
  tag : Bytes
  deriving DecidableEq

def listEntry (d : Disk) (user : Bytes) (e : Sigma fun _ : Path => FileNode) : Option StoredFile :=
  match e.1 with
  | [a, u, b, name] =>
      if a = kUsersDir ∧ u = user ∧ b = kFilesDir ∧ isSafeName name then
        some ⟨name, e.2.content.length, e.2.modified, tagOf d user name⟩
      else none
  | _ => none

/-- Byte strings in the order of `std::string`. -/
def nameLe : Bytes → Bytes → Bool
  | [], _ => true
  | _ :: _, [] => false
  | a :: as, b :: bs => decide (a < b) || (a == b && nameLe as bs)

def listFiles (d : Disk) (user : Bytes) : List StoredFile :=
  if isValidUsername user then
    (d.entries.filterMap (listEntry d user)).mergeSort fun a b => nameLe a.name b.name
  else []

/-- The steps of an upload that goes through: the body in the temporary file, the rename, and the
write of the sidecar. -/
def uploadSteps (temp final : Path) (content : Bytes) (now : ℤ) (o : FileWrite)
    (user name tag : Bytes) : List DiskStep :=
  [.write temp ⟨content, now⟩, .rename temp final] ++ writeTag now o user name tag

theorem filePath_eq_some {user name : Bytes} {p : Path} :
    filePath user name = some p ↔ isValidUsername user = true ∧ isSafeName name = true ∧
      p = [kUsersDir, user, kFilesDir, name] := by
  unfold filePath accountDir
  by_cases hu : isValidUsername user = true
  · by_cases hn : isSafeName name = true
    · simp [hu, hn, eq_comm]
    · simp [hu, hn]
  · simp [hu]

/-- Two names lead to one file only when they are the same name of the same account. -/
theorem filePath_inj {user user' name name' : Bytes} {p : Path} (h : filePath user name = some p)
    (h' : filePath user' name' = some p) : user = user' ∧ name = name' := by
  obtain ⟨-, -, rfl⟩ := filePath_eq_some.mp h
  obtain ⟨-, -, hp⟩ := filePath_eq_some.mp h'
  simpa using hp

theorem fileInfo_eq_some {d : Disk} {user name : Bytes} {size : ℕ} {tag : Bytes} :
    fileInfo d user name = some (size, tag) ↔ ∃ p c, filePath user name = some p ∧
      d.content p = some c ∧ c.length = size ∧ tagOf d user name = tag := by
  unfold fileInfo
  split
  · next h => simp [h]
  · next p h =>
    split
    · next hc => simp [h, hc]
    · next c hc => simp [h, hc]

theorem mem_listEntries (d : Disk) (user : Bytes) (x : StoredFile) :
    x ∈ d.entries.filterMap (listEntry d user) ↔ isSafeName x.name = true ∧
      ∃ node, d.lookup [kUsersDir, user, kFilesDir, x.name] = some node ∧
        x = ⟨x.name, node.content.length, node.modified, tagOf d user x.name⟩ := by
  rw [List.mem_filterMap]
  constructor
  · rintro ⟨⟨path, node⟩, hmem, hentry⟩
    unfold listEntry at hentry
    split at hentry
    · next a u b name hpath =>
      split_ifs at hentry with hok
      obtain ⟨rfl, rfl, rfl, hsafe⟩ := hok
      obtain rfl := Option.some.inj hentry
      simp only at hpath
      subst hpath
      exact ⟨hsafe, node, AList.mem_lookup_iff.mpr hmem, rfl⟩
    · simp at hentry
  · rintro ⟨hsafe, node, hnode, hx⟩
    refine ⟨⟨[kUsersDir, user, kFilesDir, x.name], node⟩, AList.mem_lookup_iff.mp hnode, ?_⟩
    rw [hx]
    simp [listEntry, hsafe]

theorem fileInfo_of_listed {d : Disk} {user : Bytes} {x : StoredFile} (h : x ∈ listFiles d user) :
    fileInfo d user x.name = some (x.size, x.tag) := by
  unfold listFiles at h
  split_ifs at h with huser
  · rw [List.mem_mergeSort, mem_listEntries] at h
    obtain ⟨hsafe, node, hnode, hx⟩ := h
    rw [fileInfo_eq_some, hx]
    refine ⟨_, node.content, filePath_eq_some.mpr ⟨huser, hsafe, rfl⟩, ?_, rfl, rfl⟩
    rw [Disk.content, hnode, Option.map_some]
  · simp at h

theorem tagPath_inj {user user' name name' : Bytes} (h : tagPath user name = tagPath user' name') :
    user = user' ∧ name = name' := by
  simpa [tagPath] using h

theorem filePath_ne_tagPath {user user' name name' : Bytes} {p : Path}
    (h : filePath user name = some p) : p ≠ tagPath user' name' := by
  obtain ⟨-, -, rfl⟩ := filePath_eq_some.mp h
  have hdir : kFilesDir ≠ kMetaDir := by decide
  simp [tagPath, hdir]

variable {d : Disk} {p q : Path} {node : FileNode}

@[simp] theorem content_write (d : Disk) (p : Path) (node : FileNode) :
    ((DiskStep.write p node).apply d).content p = some node.content := by
  simp [DiskStep.apply, Disk.content]

theorem content_write_ne (h : p ≠ q) : ((DiskStep.write q node).apply d).content p = d.content p := by
  simp [DiskStep.apply, Disk.content, AList.lookup_insert_ne h]

@[simp] theorem content_remove (d : Disk) (p : Path) :
    ((DiskStep.remove p).apply d).content p = none := by
  simp [DiskStep.apply, Disk.content]

theorem content_remove_ne (h : p ≠ q) : ((DiskStep.remove q).apply d).content p = d.content p := by
  simp [DiskStep.apply, Disk.content, AList.lookup_erase_ne h]

theorem content_rename {src : Path} {content : Bytes} (h : d.content src = some content) :
    ((DiskStep.rename src p).apply d).content p = some content := by
  unfold Disk.content at h
  obtain ⟨node, hnode, rfl⟩ := Option.map_eq_some_iff.mp h
  simp [DiskStep.apply, Disk.content, hnode]

theorem content_rename_ne {src : Path} (hsrc : p ≠ src) (hdst : p ≠ q) :
    ((DiskStep.rename src q).apply d).content p = d.content p := by
  cases hnode : d.lookup src with
  | none => simp [DiskStep.apply, hnode]
  | some node =>
    simp [DiskStep.apply, hnode, Disk.content, AList.lookup_insert_ne hdst,
      AList.lookup_erase_ne hsrc]

theorem tempPath_ne_filePath {random user name : Bytes} (h : filePath user name = some p) :
    tempPath random ≠ p := by
  obtain ⟨-, -, rfl⟩ := filePath_eq_some.mp h
  simp [tempPath]

theorem tempPath_ne_tagPath {random user name : Bytes} : tempPath random ≠ tagPath user name := by
  simp [tempPath, tagPath]

theorem content_run_writeTag_ne {user name tag : Bytes} (now : ℤ) (o : FileWrite)
    (h : p ≠ tagPath user name) : (d.run (writeTag now o user name tag)).content p = d.content p := by
  cases o with
  | notOpened => rfl
  | cut k => simp only [writeTag, Disk.run, List.foldl_cons, List.foldl_nil, content_write_ne h]
  | done => simp only [writeTag, Disk.run, List.foldl_cons, List.foldl_nil, content_write_ne h]

/-- What the sidecar says when the write of a tag has ended one way or another. -/
theorem tagOf_run_writeTag (d : Disk) (now : ℤ) (o : FileWrite) (user name tag : Bytes) :
    tagOf (d.run (writeTag now o user name tag)) user name =
      match o with
      | .notOpened => tagOf d user name
      | .cut k => firstLine ((tag ++ [10]).take k)
      | .done => firstLine (tag ++ [10]) := by
  cases o with
  | notOpened => rfl
  | cut k => simp [writeTag, Disk.run, tagOf]
  | done => simp [writeTag, Disk.run, tagOf]

theorem firstLine_append_break {tag : Bytes} (h : 10 ∉ tag) : firstLine (tag ++ [10]) = tag := by
  have hall : ∀ x ∈ tag, decide (x ≠ 10) = true := by
    intro x hx
    simp only [decide_eq_true_eq]
    rintro rfl
    exact h hx
  rw [firstLine, List.takeWhile_append_of_pos hall]
  simp

theorem run_append (d : Disk) (a b : List DiskStep) : d.run (a ++ b) = (d.run a).run b :=
  List.foldl_append

variable {user name tag random content : Bytes} {final : Path} {now : ℤ}

theorem content_run_rename :
    (d.run [.write (tempPath random) ⟨content, now⟩, .rename (tempPath random) final]).content
      final = some content := by
  simp only [Disk.run, List.foldl_cons, List.foldl_nil]
  exact content_rename (content_write _ _ _)

theorem content_run_rename_ne (htemp : p ≠ tempPath random) (hfinal : p ≠ final) :
    (d.run [.write (tempPath random) ⟨content, now⟩, .rename (tempPath random) final]).content p =
      d.content p := by
  simp only [Disk.run, List.foldl_cons, List.foldl_nil]
  rw [content_rename_ne htemp hfinal, content_write_ne htemp]

/-- After an upload the file holds the body, however the write of the sidecar ended. -/
theorem content_run_upload (o : FileWrite) (h : filePath user name = some final) :
    (d.run (uploadSteps (tempPath random) final content now o user name tag)).content final =
      some content := by
  rw [uploadSteps, run_append, content_run_writeTag_ne _ _ (filePath_ne_tagPath h),
    content_run_rename]

theorem fileInfo_run_upload (o : FileWrite) (h : filePath user name = some final) :
    fileInfo (d.run (uploadSteps (tempPath random) final content now o user name tag)) user name =
      some (content.length,
        match o with
        | .notOpened => tagOf d user name
        | .cut k => firstLine ((tag ++ [10]).take k)
        | .done => firstLine (tag ++ [10])) := by
  have hsame : tagOf (d.run [.write (tempPath random) ⟨content, now⟩,
      .rename (tempPath random) final]) user name = tagOf d user name := by
    rw [tagOf, content_run_rename_ne tempPath_ne_tagPath.symm (filePath_ne_tagPath h).symm, tagOf]
  unfold fileInfo
  rw [h]
  simp only [content_run_upload o h]
  rw [uploadSteps, run_append, tagOf_run_writeTag, hsame]

theorem fileInfo_run_upload_ne (o : FileWrite) (h : filePath user name = some final)
    {user' name' : Bytes} (hne : ¬ (user' = user ∧ name' = name)) :
    fileInfo (d.run (uploadSteps (tempPath random) final content now o user name tag)) user' name' =
      fileInfo d user' name' := by
  have hkeep {q : Path} (htemp : q ≠ tempPath random) (hfinal : q ≠ final)
      (htag : q ≠ tagPath user name) :
      (d.run (uploadSteps (tempPath random) final content now o user name tag)).content q =
        d.content q := by
    rw [uploadSteps, run_append, content_run_writeTag_ne _ _ htag,
      content_run_rename_ne htemp hfinal]
  unfold fileInfo
  split
  · rfl
  · next path hpath =>
    have hfinal : path ≠ final := by
      rintro rfl
      exact hne (filePath_inj hpath h)
    have hside : tagPath user' name' ≠ tagPath user name := fun he => hne (tagPath_inj he)
    rw [hkeep (tempPath_ne_filePath hpath).symm hfinal (filePath_ne_tagPath hpath), tagOf,
      hkeep tempPath_ne_tagPath.symm (filePath_ne_tagPath h).symm hside, ← tagOf]

end Store

def DiskStep.OnTemp (random : Bytes) (st : DiskStep) : Prop :=
  (∃ node, st = .write (Store.tempPath random) node) ∨ st = .remove (Store.tempPath random)

theorem Store.content_run_temp {d : Disk} {random : Bytes} {steps : List DiskStep}
    (h : ∀ st ∈ steps, st.OnTemp random) {p : Path} (hp : p ≠ tempPath random) :
    (d.run steps).content p = d.content p := by
  induction steps generalizing d with
  | nil => rfl
  | cons st steps ih =>
    have hstep : (st.apply d).content p = d.content p := by
      rcases h st (by simp) with ⟨node, rfl⟩ | rfl
      · exact content_write_ne hp
      · exact content_remove_ne hp
    rw [← hstep]
    exact ih fun x hx => h x (List.mem_cons_of_mem _ hx)

theorem Store.fileInfo_congr {d d' : Disk}
    (h : ∀ p, (∀ random, p ≠ tempPath random) → d'.content p = d.content p) (user name : Bytes) :
    fileInfo d' user name = fileInfo d user name := by
  unfold fileInfo
  split
  · rfl
  · next path hpath =>
    rw [h path fun _ => (tempPath_ne_filePath hpath).symm, tagOf,
      h _ fun _ => tempPath_ne_tagPath.symm, ← tagOf]

theorem Store.fileInfo_run_temp {d : Disk} {random : Bytes} {steps : List DiskStep}
    (h : ∀ st ∈ steps, st.OnTemp random) (user name : Bytes) :
    fileInfo (d.run steps) user name = fileInfo d user name := by
  exact fileInfo_congr (fun p hp => content_run_temp h (hp random)) user name

end PersonalCloud
