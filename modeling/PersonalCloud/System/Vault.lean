import PersonalCloud.Library.Refinement
import PersonalCloud.System.Scope

/-! What the server is for: a map from the names of each account to what is kept under them, and a
map of chunks. The store on disk, with its directories, sidecars and temporary files, stands for
such a map. -/
namespace PersonalCloud

open Store Transfer

structure Held where
  content : Bytes
  tag : Bytes
  modified : ℤ
  deriving DecidableEq

def Held.entry (name : Bytes) (k : Held) : StoredFile := ⟨name, k.content.length, k.modified, k.tag⟩

@[ext] structure Vault where
  files : Bytes → Bytes → Option Held
  chunks : Bytes → Option Bytes

namespace Vault

inductive Request where
  | put (user name : Bytes) (kept : Held)
  | get (user name : Bytes)
  | stat (user name : Bytes)
  | delete (user name : Bytes)
  | list (user : Bytes)
  | putChunk (id content : Bytes)
  | getChunk (id : Bytes)
  | delChunk (id : Bytes)
  /-- Neither changes what is kept nor asks about it. -/
  | other
  deriving DecidableEq

inductive Result where
  | stored
  | removed
  | missing
  | content (c : Bytes)
  | info (size : ℕ) (tag : Bytes)
  | listing (l : List StoredFile)
  deriving DecidableEq

def setFile (v : Vault) (user name : Bytes) (k : Option Held) : Vault :=
  { v with files := Function.update v.files user (Function.update (v.files user) name k) }

def setChunk (v : Vault) (id : Bytes) (c : Option Bytes) : Vault :=
  { v with chunks := Function.update v.chunks id c }

def step (v : Vault) : Request → Vault
  | .put user name kept => v.setFile user name (some kept)
  | .delete user name => v.setFile user name none
  | .putChunk id content => v.setChunk id (some content)
  | .delChunk id => v.setChunk id none
  | _ => v

/-- The files of an account in the order of their names, each once. -/
def Listing (files : Bytes → Option Held) (l : List StoredFile) : Prop :=
  (l.Pairwise fun a b => nameLe a.name b.name = true ∧ a.name ≠ b.name) ∧
  ∀ x, x ∈ l ↔ ∃ k, files x.name = some k ∧ x = k.entry x.name

/-- The answer a request calls for. Deleting a chunk that is not there counts as done. -/
def Answers (v : Vault) : Request → Result → Prop
  | .put .., r => r = .stored
  | .get user name, r => r = (v.files user name).elim .missing fun k => .content k.content
  | .stat user name, r =>
      r = (v.files user name).elim .missing fun k => .info k.content.length k.tag
  | .delete user name, r => r = (v.files user name).elim .missing fun _ => .removed
  | .list user, r => ∃ l, r = .listing l ∧ Listing (v.files user) l
  | .putChunk .., r => r = .stored
  | .getChunk id, r => r = (v.chunks id).elim .missing .content
  | .delChunk _, r => r = .removed
  | .other, _ => True

section Answers

variable (v : Vault) (user name id : Bytes) (r : Result)

@[simp] theorem answers_get : v.Answers (.get user name) r ↔
    r = (v.files user name).elim .missing fun k => .content k.content := Iff.rfl

@[simp] theorem answers_stat : v.Answers (.stat user name) r ↔
    r = (v.files user name).elim .missing fun k => .info k.content.length k.tag := Iff.rfl

@[simp] theorem answers_delete : v.Answers (.delete user name) r ↔
    r = (v.files user name).elim .missing fun _ => .removed := Iff.rfl

@[simp] theorem answers_getChunk : v.Answers (.getChunk id) r ↔
    r = (v.chunks id).elim .missing .content := Iff.rfl

end Answers

theorem Listing.unique {files : Bytes → Option Held} {l l' : List StoredFile}
    (h : Listing files l) (h' : Listing files l') : l = l' := by
  have hnodup {l : List StoredFile} (h : Listing files l) : l.Nodup :=
    h.1.imp fun hab he => hab.2 (by rw [he])
  have hperm : l.Perm l' :=
    (List.perm_ext_iff_of_nodup (hnodup h) (hnodup h')).mpr fun x => by rw [h.2, h'.2]
  refine hperm.eq_of_pairwise (fun a b ha hb hab hba => ?_) h.1 h'.1
  exact absurd (nameLe_antisymm _ _ hab.1 hba.1) hab.2

section Updates

variable (v : Vault) (user name : Bytes) (k : Option Held)

theorem files_setFile (user' name' : Bytes) : (v.setFile user name k).files user' name' =
    if user' = user ∧ name' = name then k else v.files user' name' := by
  unfold setFile
  by_cases huser : user' = user
  · subst huser
    by_cases hname : name' = name
    · simp [hname]
    · simp [hname]
  · simp [huser]

@[simp] theorem chunks_setFile : (v.setFile user name k).chunks = v.chunks := rfl

@[simp] theorem files_setChunk (id : Bytes) (c : Option Bytes) : (v.setChunk id c).files = v.files :=
  rfl

theorem chunks_setChunk (id : Bytes) (c : Option Bytes) (id' : Bytes) :
    (v.setChunk id c).chunks id' = if id' = id then c else v.chunks id' := by
  simp [setChunk, Function.update_apply]

theorem setFile_of_eq (h : v.files user name = k) : v.setFile user name k = v := by
  have hrow : Function.update (v.files user) name k = v.files user := by
    rw [← h, Function.update_eq_self]
  rw [setFile, hrow, Function.update_eq_self]

end Updates

/-- The request replaces or removes what is kept under a name. -/
def Request.Changes (user name : Bytes) : Request → Prop
  | .put u n _ => u = user ∧ n = name
  | .delete u n => u = user ∧ n = name
  | _ => False

instance (user name : Bytes) : DecidablePred (Request.Changes user name) := fun r => by
  cases r <;> unfold Request.Changes <;> infer_instance

theorem files_step_of_not_changes {v : Vault} {r : Request} {user name : Bytes}
    (h : ¬ r.Changes user name) : (v.step r).files user name = v.files user name := by
  cases r with
  | put u n kept =>
    rw [step, files_setFile, if_neg]
    rintro ⟨rfl, rfl⟩
    exact h ⟨rfl, rfl⟩
  | delete u n =>
    rw [step, files_setFile, if_neg]
    rintro ⟨rfl, rfl⟩
    exact h ⟨rfl, rfl⟩
  | get | stat | list | putChunk | getChunk | delChunk | other => rfl

end Vault

/-- What the files on a disk stand for. -/
def vaultOf (d : Disk) : Vault where
  files user name := (filePath user name).bind fun p =>
    (d.lookup p).map fun node => ⟨node.content, tagOf d user name, node.modified⟩
  chunks id := (chunkPath id).bind d.content

namespace Vault

variable {d d' : Disk} {user name tag random content : Bytes} {p : Path} {now : ℤ}

theorem vaultOf_files (h : filePath user name = some p) : (vaultOf d).files user name =
    (d.lookup p).map fun node => ⟨node.content, tagOf d user name, node.modified⟩ := by
  simp only [vaultOf, h, Option.bind_some]

theorem vaultOf_files_none (h : filePath user name = none) :
    (vaultOf d).files user name = none := by
  simp only [vaultOf, h, Option.bind_none]

theorem vaultOf_congr (h : ∀ p, (∀ random, p ≠ tempPath random) → d'.lookup p = d.lookup p) :
    vaultOf d' = vaultOf d := by
  have htag (user name : Bytes) : tagOf d' user name = tagOf d user name := by
    rw [tagOf, Disk.content, h _ fun _ => tempPath_ne_tagPath.symm, ← Disk.content, ← tagOf]
  unfold vaultOf
  congr 1
  · funext user name
    refine Option.bind_congr fun p hp => ?_
    rw [h p fun _ => (tempPath_ne_filePath hp).symm, htag]
  · funext id
    refine Option.bind_congr fun p hp => ?_
    rw [Disk.content, Disk.content, h p ((has_chunkPath hp).ne_tempPath)]

theorem vaultOf_run_temp {steps : List DiskStep} (h : ∀ st ∈ steps, st.OnTemp random) :
    vaultOf (d.run steps) = vaultOf d := by
  refine vaultOf_congr fun p hp => ?_
  induction steps generalizing d with
  | nil => rfl
  | cons st steps ih =>
    rw [Disk.run, List.foldl_cons, ← Disk.run, ih fun x hx => h x (List.mem_cons_of_mem _ hx)]
    rcases h st (by simp) with ⟨node, rfl⟩ | rfl
    · rw [lookup_write, if_neg (hp random)]
    · rw [lookup_remove, if_neg (hp random)]

theorem vaultOf_of_file (h : filePath user name = some p) {node side : Option FileNode}
    (hd : ∀ q, (∀ random, q ≠ tempPath random) → d'.lookup q =
      if q = p then node else if q = tagPath user name then side else d.lookup q) :
    vaultOf d' = (vaultOf d).setFile user name (node.map fun n =>
      ⟨n.content, (side.map fun s => firstLine s.content).getD [], n.modified⟩) := by
  apply Vault.ext
  · funext user' name'
    have hside : (∀ random, tagPath user' name' ≠ tempPath random) ∧ tagPath user' name' ≠ p :=
      ⟨fun _ => tempPath_ne_tagPath.symm, (filePath_ne_tagPath h).symm⟩
    have htag : tagOf d' user' name' = ((if tagPath user' name' = tagPath user name then side
        else d.lookup (tagPath user' name')).map fun s => firstLine s.content).getD [] := by
      rw [tagOf, Disk.content, hd _ hside.1, if_neg hside.2, Option.map_map]
      rfl
    rw [files_setFile]
    cases hpath : filePath user' name' with
    | none =>
      have hne : ¬ (user' = user ∧ name' = name) := by
        rintro ⟨rfl, rfl⟩
        simp [h] at hpath
      rw [vaultOf_files_none hpath, vaultOf_files_none hpath, if_neg hne]
    | some q =>
      rw [vaultOf_files hpath, vaultOf_files hpath, hd q fun _ => (tempPath_ne_filePath hpath).symm,
        if_neg (filePath_ne_tagPath hpath), htag]
      by_cases hsame : user' = user ∧ name' = name
      · obtain rfl : q = p := by
          rw [hsame.1, hsame.2, h] at hpath
          exact (Option.some.inj hpath).symm
        rw [if_pos hsame, if_pos rfl, if_pos (by rw [hsame.1, hsame.2])]
      · have hfinal : q ≠ p := fun he => hsame (filePath_inj hpath (he ▸ h))
        rw [if_neg hsame, if_neg hfinal, if_neg fun he => hsame (tagPath_inj he), tagOf,
          Disk.content, Option.map_map]
        rfl
  · funext id
    refine Option.bind_congr fun q hq => ?_
    have hchunk := has_chunkPath hq
    have hne {p : Path} (hp : (Scope.account user).Has p) : q ≠ p := fun he => by
      have hsame := hchunk.unique (he ▸ hp)
      simp at hsame
    rw [Disk.content, hd q hchunk.ne_tempPath, if_neg (hne (has_filePath h)),
      if_neg (hne (has_tagPath h)), Disk.content]

theorem vaultOf_of_chunk {id : Bytes} (h : chunkPath id = some p) {node : Option FileNode}
    (hd : ∀ q, (∀ random, q ≠ tempPath random) → d'.lookup q = if q = p then node else d.lookup q) :
    vaultOf d' = (vaultOf d).setChunk id (node.map FileNode.content) := by
  have hchunk := has_chunkPath h
  apply Vault.ext
  · funext user name
    rw [files_setChunk]
    refine Option.bind_congr fun q hq => ?_
    have hne {q : Path} (hq : (Scope.account user).Has q) : q ≠ p := fun he => by
      have hsame := hchunk.unique (he ▸ hq)
      simp at hsame
    rw [hd q fun _ => (tempPath_ne_filePath hq).symm, if_neg (hne (has_filePath hq)), tagOf,
      Disk.content, hd _ fun _ => tempPath_ne_tagPath.symm, if_neg (hne (has_tagPath hq)),
      ← Disk.content, ← tagOf]
  · funext id'
    rw [chunks_setChunk]
    cases hpath : chunkPath id' with
    | none =>
      have hne : id' ≠ id := by
        rintro rfl
        simp [h] at hpath
      rw [if_neg hne]
      simp [vaultOf, hpath]
    | some q =>
      have htemp := (has_chunkPath hpath).ne_tempPath
      obtain ⟨-, rfl⟩ := chunkPath_eq_some.mp hpath
      obtain ⟨-, rfl⟩ := chunkPath_eq_some.mp h
      simp only [vaultOf, hpath, Option.bind_some, Disk.content, hd _ htemp]
      by_cases hid : id' = id
      · simp [hid]
      · simp [hid]

theorem firstLine_append (tag : Bytes) : firstLine (tag ++ [10]) = firstLine tag := by
  induction tag with
  | nil => rfl
  | cons c cs ih =>
    simp only [firstLine, List.cons_append, List.takeWhile_cons] at ih ⊢
    split_ifs
    · rw [ih]
    · rfl

theorem vaultOf_run_upload (h : filePath user name = some p) :
    vaultOf (d.run (uploadSteps (tempPath random) p content now .done user name tag)) =
      (vaultOf d).setFile user name (some ⟨content, firstLine tag, now⟩) := by
  have hd (q : Path) (hq : ∀ random, q ≠ tempPath random) :
      (d.run (uploadSteps (tempPath random) p content now .done user name tag)).lookup q =
        if q = p then some ⟨content, now⟩
        else if q = tagPath user name then some ⟨tag ++ [10], now⟩ else d.lookup q := by
    simp only [uploadSteps, writeTag, Disk.run, List.cons_append, List.nil_append,
      List.foldl_cons, List.foldl_nil]
    rw [lookup_write, lookup_write, lookup_store d _ (hq random)]
    split_ifs with htag hfile
    · exact absurd (hfile.symm.trans htag) (filePath_ne_tagPath h)
    · rfl
    · rfl
    · rfl
  rw [vaultOf_of_file h hd, Option.map_some, Option.map_some, firstLine_append]
  rfl

theorem vaultOf_run_chunk {id : Bytes} (h : chunkPath id = some p) :
    vaultOf (d.run [.write (tempPath random) ⟨content, now⟩, .rename (tempPath random) p]) =
      (vaultOf d).setChunk id (some content) :=
  vaultOf_of_chunk h fun _ hq => lookup_store d _ (hq random)

theorem vaultOf_run_delChunk {id : Bytes} (h : chunkPath id = some p) :
    vaultOf (d.run [.remove p]) = (vaultOf d).setChunk id none :=
  vaultOf_of_chunk h fun q _ => lookup_remove d p q

theorem vaultOf_run_removeFile {o : Removal} (hfile : o.file = true) (hside : o.sidecar = true) :
    vaultOf (d.run (removeFile d o user name).1) = (vaultOf d).setFile user name none ∧
      (removeFile d o user name).2 = ((vaultOf d).files user name).isSome := by
  cases hpath : filePath user name with
  | none =>
    have hnone : (vaultOf d).files user name = none := vaultOf_files_none hpath
    simp only [removeFile, hpath]
    refine ⟨?_, by rw [hnone]; rfl⟩
    rw [setFile_of_eq _ _ _ _ hnone]
    rfl
  | some p =>
    have hd (q : Path) (_ : ∀ random, q ≠ tempPath random) :
        (d.run (removeFile d o user name).1).lookup q =
          if q = p then none else if q = tagPath user name then none else d.lookup q := by
      simp only [removeFile, hpath, hfile, hside, Bool.true_and, ↓reduceIte]
      by_cases hsome : (d.lookup p).isSome = true
      · simp only [hsome, ↓reduceIte, Disk.run, List.cons_append, List.nil_append, List.foldl_cons,
          List.foldl_nil]
        rw [lookup_remove, lookup_remove]
        split_ifs <;> rfl
      · simp only [hsome, Disk.run, Bool.false_eq_true, ↓reduceIte, List.nil_append, List.foldl_cons,
          List.foldl_nil]
        rw [lookup_remove]
        by_cases hq : q = p
        · subst hq
          have hnone : d.lookup q = none := by simpa using hsome
          simp [hnone]
        · rw [if_neg hq]
    refine ⟨by rw [vaultOf_of_file hpath hd, Option.map_none], ?_⟩
    simp [removeFile, hpath, hfile, vaultOf_files hpath]

theorem listing_listFiles (d : Disk) (user : Bytes) :
    Listing ((vaultOf d).files user) (listFiles d user) := by
  have hmem (x : StoredFile) (huser : isValidUsername user = true) :
      (isSafeName x.name = true ∧ ∃ node, d.lookup [kUsersDir, user, kFilesDir, x.name] = some node ∧
        x = ⟨x.name, node.content.length, node.modified, tagOf d user x.name⟩) ↔
      ∃ k, (vaultOf d).files user x.name = some k ∧ x = k.entry x.name := by
    constructor
    · rintro ⟨hsafe, node, hnode, hx⟩
      refine ⟨⟨node.content, tagOf d user x.name, node.modified⟩, ?_, hx⟩
      rw [vaultOf_files (filePath_eq_some.mpr ⟨huser, hsafe, rfl⟩), hnode, Option.map_some]
    · rintro ⟨k, hk, hx⟩
      cases hpath : filePath user x.name with
      | none => simp [vaultOf_files_none hpath] at hk
      | some p =>
        rw [vaultOf_files hpath] at hk
        obtain ⟨-, hsafe, rfl⟩ := filePath_eq_some.mp hpath
        obtain ⟨node, hnode, rfl⟩ := Option.map_eq_some_iff.mp hk
        exact ⟨hsafe, node, hnode, hx⟩
  unfold listFiles
  split_ifs with huser
  · constructor
    · have hsorted : ((d.entries.filterMap (listEntry d user)).mergeSort
          fun a b => nameLe a.name b.name).Pairwise fun a b => nameLe a.name b.name = true :=
        List.pairwise_mergeSort (fun a b c => nameLe_trans a.name b.name c.name)
          (fun a b => by simpa using nameLe_total a.name b.name) _
      have hnames : ((d.entries.filterMap (listEntry d user)).mergeSort
          fun a b => nameLe a.name b.name).Pairwise fun a b => a.name ≠ b.name :=
        ((List.mergeSort_perm _ _).pairwise_iff Ne.symm).mpr (nodup_listEntries d user)
      exact hsorted.and hnames
    · intro x
      rw [List.mem_mergeSort, mem_listEntries, hmem x huser]
  · have hnone (name : Bytes) : (vaultOf d).files user name = none := by
      apply vaultOf_files_none
      by_contra hsome
      obtain ⟨p, hp⟩ := Option.ne_none_iff_exists'.mp hsome
      exact huser (filePath_eq_some.mp hp).1
    exact ⟨.nil, fun x => by simp [hnone]⟩

end Vault

end PersonalCloud
