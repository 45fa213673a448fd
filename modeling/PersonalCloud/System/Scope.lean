import PersonalCloud.Server.Transfer

/-! What part of the store a request can see and change: the files and sidecars of one account, the
chunks, or nothing; and besides that its own temporary file. -/
namespace PersonalCloud

open Proto Store Transfer Http

inductive Scope where
  | nothing
  | account (user : Bytes)
  | chunks
  deriving DecidableEq

def Scope.Has : Scope → Path → Prop
  | nothing, _ => False
  | account user, p => isValidUsername user = true ∧ ∃ name, isSafeName name = true ∧
      (p = [kUsersDir, user, kFilesDir, name] ∨ p = tagPath user name)
  | chunks, p => ∃ id, isSafeChunkId id = true ∧ p = [kChunksDir, id]

/-- Two stores that look the same from within a scope. -/
def Scope.Agree (sc : Scope) (d d' : Disk) : Prop := ∀ p, sc.Has p → d'.lookup p = d.lookup p

/-- Steps that stay within a scope and one temporary file, and put nothing in place that they have
not written before. -/
inductive Confined (sc : Scope) (random : Bytes) : List DiskStep → Prop where
  | nil : Confined sc random []
  | write {p : Path} {node : FileNode} {steps : List DiskStep} (hp : sc.Has p)
      (h : Confined sc random steps) : Confined sc random (.write p node :: steps)
  | remove {p : Path} {steps : List DiskStep} (hp : sc.Has p) (h : Confined sc random steps) :
      Confined sc random (.remove p :: steps)
  | temp {st : DiskStep} {steps : List DiskStep} (hsc : sc ≠ .nothing) (hst : st.OnTemp random)
      (h : Confined sc random steps) : Confined sc random (st :: steps)
  | store {p : Path} {node : FileNode} {steps : List DiskStep} (hp : sc.Has p)
      (h : Confined sc random steps) :
      Confined sc random (.write (tempPath random) node :: .rename (tempPath random) p :: steps)

theorem Scope.ne_nothing {sc : Scope} {p : Path} (h : sc.Has p) : sc ≠ .nothing := by
  rintro rfl
  exact h

/-- Accounts and chunks have no path in common, nor have two accounts. -/
theorem Scope.Has.unique {sc sc' : Scope} {p : Path} (h : sc.Has p) (h' : sc'.Has p) : sc = sc' := by
  have hkeys : kUsersDir ≠ kChunksDir := by decide
  cases sc with
  | nothing => exact h.elim
  | account user =>
    obtain ⟨-, name, -, hp⟩ := h
    cases sc' with
    | nothing => exact h'.elim
    | account user' =>
      obtain ⟨-, name', -, hp'⟩ := h'
      rcases hp with rfl | rfl <;> rcases hp' with hp' | hp' <;> simp_all [tagPath]
    | chunks =>
      obtain ⟨id, -, hp'⟩ := h'
      rcases hp with rfl | rfl <;> simp_all [tagPath]
  | chunks =>
    obtain ⟨id, -, rfl⟩ := h
    cases sc' with
    | nothing => exact h'.elim
    | account user' =>
      obtain ⟨-, name', -, hp'⟩ := h'
      rcases hp' with hp' | hp' <;> simp_all [tagPath]
    | chunks => rfl

theorem Scope.Has.ne_tempPath {sc : Scope} {p : Path} (h : sc.Has p) (random : Bytes) :
    p ≠ tempPath random := by
  have hkeys : kUsersDir ≠ kTmpDir ∧ kChunksDir ≠ kTmpDir := by decide
  cases sc with
  | nothing => exact h.elim
  | account user =>
    obtain ⟨-, name, -, rfl | rfl⟩ := h
    · simp [tempPath]
    · simp [tempPath, tagPath]
  | chunks =>
    obtain ⟨id, -, rfl⟩ := h
    simp [tempPath, hkeys.2]

def DiskStep.paths : DiskStep → List Path
  | write p _ => [p]
  | rename src dst => [src, dst]
  | remove p => [p]

section Confined

variable {sc : Scope} {random : Bytes} {steps : List DiskStep} {d d' : Disk} {p : Path}

theorem Confined.paths (h : Confined sc random steps) :
    ∀ st ∈ steps, ∀ p ∈ st.paths, sc.Has p ∨ p = tempPath random := by
  induction h with
  | nil => simp
  | write hp _ ih | remove hp _ ih =>
    intro st hst
    rcases List.mem_cons.mp hst with rfl | hst
    · exact fun p hpath => .inl (List.mem_singleton.mp hpath ▸ hp)
    · exact ih st hst
  | temp _ htemp _ ih =>
    intro st hst
    rcases List.mem_cons.mp hst with rfl | hst
    · rcases htemp with ⟨node, rfl⟩ | rfl
      · exact fun p hpath => .inr (List.mem_singleton.mp hpath)
      · exact fun p hpath => .inr (List.mem_singleton.mp hpath)
    · exact ih st hst
  | store hp _ ih =>
    intro st hst
    rcases List.mem_cons.mp hst with rfl | hst
    · exact fun p hpath => .inr (List.mem_singleton.mp hpath)
    · rcases List.mem_cons.mp hst with rfl | hst
      · intro p hpath
        rcases List.mem_pair.mp hpath with rfl | rfl
        · exact .inr rfl
        · exact .inl hp
      · exact ih st hst

theorem lookup_write (d : Disk) (p q : Path) (node : FileNode) :
    ((DiskStep.write p node).apply d).lookup q = if q = p then some node else d.lookup q := by
  split_ifs with h
  · rw [h]
    exact AList.lookup_insert _
  · exact AList.lookup_insert_ne h

theorem lookup_remove (d : Disk) (p q : Path) :
    ((DiskStep.remove p).apply d).lookup q = if q = p then none else d.lookup q := by
  split_ifs with h
  · rw [h]
    exact AList.lookup_erase _ _
  · exact AList.lookup_erase_ne h

theorem lookup_store (d : Disk) {random : Bytes} {p q : Path} (node : FileNode)
    (hq : q ≠ tempPath random) :
    ((DiskStep.rename (tempPath random) p).apply
      ((DiskStep.write (tempPath random) node).apply d)).lookup q =
        if q = p then some node else d.lookup q := by
  have htemp : ((DiskStep.write (tempPath random) node).apply d).lookup (tempPath random) =
      some node := AList.lookup_insert _
  simp only [DiskStep.apply] at htemp ⊢
  rw [htemp]
  simp only
  split_ifs with h
  · rw [h]
    exact AList.lookup_insert _
  · rw [AList.lookup_insert_ne h, AList.lookup_erase_ne hq, AList.lookup_insert_ne hq]

theorem Confined.frame (h : Confined sc random steps) (hp : ¬ sc.Has p)
    (htemp : ∀ random, p ≠ tempPath random) : (d.run steps).lookup p = d.lookup p := by
  have hne {q : Path} (hq : sc.Has q) : p ≠ q := fun he => hp (he ▸ hq)
  induction h generalizing d with
  | nil => rfl
  | write hq _ ih =>
    rw [Disk.run, List.foldl_cons, ← Disk.run, ih, lookup_write, if_neg (hne hq)]
  | remove hq _ ih =>
    rw [Disk.run, List.foldl_cons, ← Disk.run, ih, lookup_remove, if_neg (hne hq)]
  | temp _ hst _ ih =>
    rw [Disk.run, List.foldl_cons, ← Disk.run, ih]
    rcases hst with ⟨node, rfl⟩ | rfl
    · rw [lookup_write, if_neg (htemp _)]
    · rw [lookup_remove, if_neg (htemp _)]
  | store hq _ ih =>
    rw [Disk.run, List.foldl_cons, List.foldl_cons, ← Disk.run, ih, lookup_store d _ (htemp _),
      if_neg (hne hq)]

/-- What the steps make of a path depends on nothing but what was there. -/
theorem Confined.congr (h : Confined sc random steps) (htemp : ∀ random, p ≠ tempPath random)
    (hd : d'.lookup p = d.lookup p) : (d'.run steps).lookup p = (d.run steps).lookup p := by
  induction h generalizing d d' with
  | nil => exact hd
  | write hq _ ih =>
    refine ih ?_
    rw [lookup_write, lookup_write, hd]
  | remove hq _ ih =>
    refine ih ?_
    rw [lookup_remove, lookup_remove, hd]
  | temp _ hst _ ih =>
    refine ih ?_
    rcases hst with ⟨node, rfl⟩ | rfl
    · rw [lookup_write, lookup_write, hd]
    · rw [lookup_remove, lookup_remove, hd]
  | store hq _ ih =>
    refine ih ?_
    rw [lookup_store d _ (htemp _), lookup_store d' _ (htemp _), hd]

theorem Confined.append {steps' : List DiskStep} (h : Confined sc random steps)
    (h' : Confined sc random steps') : Confined sc random (steps ++ steps') := by
  induction h with
  | nil => exact h'
  | write hp _ ih => exact .write hp ih
  | remove hp _ ih => exact .remove hp ih
  | temp hsc hst _ ih => exact .temp hsc hst ih
  | store hp _ ih => exact .store hp ih

theorem confined_of_onTemp (hsc : sc ≠ .nothing) (h : ∀ st ∈ steps, st.OnTemp random) :
    Confined sc random steps := by
  induction steps with
  | nil => exact .nil
  | cons st steps ih =>
    exact .temp hsc (h st (by simp)) (ih fun x hx => h x (List.mem_cons_of_mem _ hx))

end Confined

section Reads

variable {d d' : Disk} {user name : Bytes} {p : Path}

theorem Scope.Agree.content {sc : Scope} (h : sc.Agree d d') (hp : sc.Has p) :
    d'.content p = d.content p := by
  rw [Disk.content, h p hp, Disk.content]

theorem has_filePath (h : filePath user name = some p) : (Scope.account user).Has p := by
  obtain ⟨huser, hname, rfl⟩ := filePath_eq_some.mp h
  exact ⟨huser, name, hname, .inl rfl⟩

theorem has_tagPath (h : filePath user name = some p) :
    (Scope.account user).Has (tagPath user name) := by
  obtain ⟨huser, hname, -⟩ := filePath_eq_some.mp h
  exact ⟨huser, name, hname, .inr rfl⟩

theorem has_chunkPath {id : Bytes} (h : chunkPath id = some p) : Scope.chunks.Has p := by
  obtain ⟨hid, rfl⟩ := chunkPath_eq_some.mp h
  exact ⟨id, hid, rfl⟩

theorem getContent_agree (h : (Scope.account user).Agree d d') :
    (filePath user name).bind d'.content = (filePath user name).bind d.content := by
  cases hpath : filePath user name with
  | none => rfl
  | some p => exact h.content (has_filePath hpath)

theorem getChunk_agree {id : Bytes} (h : Scope.chunks.Agree d d') :
    (chunkPath id).bind d'.content = (chunkPath id).bind d.content := by
  cases hpath : chunkPath id with
  | none => rfl
  | some p => exact h.content (has_chunkPath hpath)

theorem tagOf_agree (h : (Scope.account user).Agree d d') (huser : isValidUsername user = true)
    (hname : isSafeName name = true) : tagOf d' user name = tagOf d user name := by
  rw [tagOf, h.content ⟨huser, name, hname, .inr rfl⟩, tagOf]

theorem fileInfo_agree (h : (Scope.account user).Agree d d') :
    fileInfo d' user name = fileInfo d user name := by
  unfold fileInfo
  split
  · rfl
  · next p hpath =>
    obtain ⟨huser, hname, -⟩ := filePath_eq_some.mp hpath
    rw [h.content (has_filePath hpath), tagOf_agree h huser hname]

theorem removeFile_agree (h : (Scope.account user).Agree d d') (o : Removal) :
    removeFile d' o user name = removeFile d o user name := by
  unfold removeFile
  split
  · rfl
  · next p hpath => rw [h p (has_filePath hpath)]

theorem nodup_listEntries (d : Disk) (user : Bytes) :
    (d.entries.filterMap (listEntry d user)).Pairwise fun x y => x.name ≠ y.name := by
  have hkeys : d.entries.Pairwise fun a b => a.1 ≠ b.1 := List.nodupKeys_iff_pairwise.mp d.nodupKeys
  refine List.Pairwise.filterMap _ (fun a b hab x hx y hy hname => hab ?_) hkeys
  have hpath {e : Sigma fun _ : Path => FileNode} {z : StoredFile}
      (hz : listEntry d user e = some z) : e.1 = [kUsersDir, user, kFilesDir, z.name] := by
    unfold listEntry at hz
    split at hz
    · next heq =>
      split_ifs at hz with hok
      obtain ⟨rfl, rfl, rfl, -⟩ := hok
      rw [heq, ← Option.some.inj hz]
    · simp at hz
  rw [hpath hx, hpath hy, hname]

theorem nameLe_total : ∀ a b : Bytes, nameLe a b = true ∨ nameLe b a = true
  | [], _ => .inl rfl
  | _ :: _, [] => .inr rfl
  | a :: as, b :: bs => by
    have ih := nameLe_total as bs
    simp only [nameLe, Bool.or_eq_true, decide_eq_true_eq, Bool.and_eq_true, beq_iff_eq,
      UInt8.lt_iff_toNat_lt, ← UInt8.toNat_inj]
    rcases lt_trichotomy a.toNat b.toNat with h | h | h
    · exact .inl (.inl h)
    · exact ih.imp (fun h' => .inr ⟨h, h'⟩) fun h' => .inr ⟨h.symm, h'⟩
    · exact .inr (.inl h)

theorem nameLe_trans : ∀ a b c : Bytes, nameLe a b = true → nameLe b c = true → nameLe a c = true
  | [], _, _, _, _ => rfl
  | _ :: _, [], _, h, _ => by simp [nameLe] at h
  | _ :: _, _ :: _, [], _, h => by simp [nameLe] at h
  | a :: as, b :: bs, c :: cs, h, h' => by
    simp only [nameLe, Bool.or_eq_true, decide_eq_true_eq, Bool.and_eq_true, beq_iff_eq,
      UInt8.lt_iff_toNat_lt, ← UInt8.toNat_inj] at h h' ⊢
    rcases h with h | ⟨hab, h⟩
    · rcases h' with h' | ⟨hbc, -⟩
      · exact .inl (h.trans h')
      · exact .inl (hbc ▸ h)
    · rcases h' with h' | ⟨hbc, h'⟩
      · exact .inl (hab ▸ h')
      · exact .inr ⟨hab.trans hbc, nameLe_trans as bs cs h h'⟩

theorem nameLe_antisymm : ∀ a b : Bytes, nameLe a b = true → nameLe b a = true → a = b
  | [], [], _, _ => rfl
  | [], _ :: _, _, h => by simp [nameLe] at h
  | _ :: _, [], h, _ => by simp [nameLe] at h
  | a :: as, b :: bs, h, h' => by
    simp only [nameLe, Bool.or_eq_true, decide_eq_true_eq, Bool.and_eq_true, beq_iff_eq,
      UInt8.lt_iff_toNat_lt] at h h'
    rcases h with h | ⟨rfl, h⟩
    · rcases h' with h' | ⟨rfl, -⟩
      · exact absurd h' h.asymm
      · exact absurd h (lt_irrefl _)
    · rcases h' with h' | ⟨-, h'⟩
      · exact absurd h' (lt_irrefl _)
      · rw [nameLe_antisymm as bs h h']

theorem listFiles_agree (h : (Scope.account user).Agree d d') :
    listFiles d' user = listFiles d user := by
  unfold listFiles
  split_ifs with huser
  · have hmem (x : StoredFile) : x ∈ d'.entries.filterMap (listEntry d' user) ↔
        x ∈ d.entries.filterMap (listEntry d user) := by
      rw [mem_listEntries, mem_listEntries]
      refine and_congr_right fun hsafe => ?_
      rw [h _ ⟨huser, x.name, hsafe, .inl rfl⟩, tagOf_agree h huser hsafe]
    have hnodup (d : Disk) : (d.entries.filterMap (listEntry d user)).Nodup :=
      (nodup_listEntries d user).imp fun hne he => hne (by rw [he])
    have hperm : (d'.entries.filterMap (listEntry d' user)).Perm
        (d.entries.filterMap (listEntry d user)) :=
      (List.perm_ext_iff_of_nodup (hnodup d') (hnodup d)).mpr hmem
    have hsorted (l : List StoredFile) :
        (l.mergeSort fun a b => nameLe a.name b.name).Pairwise
          fun a b => nameLe a.name b.name = true :=
      List.pairwise_mergeSort (fun a b c => nameLe_trans a.name b.name c.name)
        (fun a b => by simpa using nameLe_total a.name b.name) l
    refine List.Perm.eq_of_pairwise (fun x y hx hy hxy hyx => ?_) (hsorted _) (hsorted _)
      (((List.mergeSort_perm _ _).trans hperm).trans (List.mergeSort_perm _ _).symm)
    -- two entries of one name are the entry of one path
    rw [List.mem_mergeSort] at hx hy
    obtain ⟨-, node, hnode, hx⟩ := (mem_listEntries d user x).mp ((hmem x).mp hx)
    obtain ⟨-, node', hnode', hy⟩ := (mem_listEntries d user y).mp hy
    have hname := nameLe_antisymm _ _ hxy hyx
    rw [← hname, hnode] at hnode'
    obtain rfl := Option.some.inj hnode'
    rw [hx, hy, hname]
  · rfl

end Reads

/-- What a handler answers and does, as a function of the store it finds, stays within a scope. -/
structure Within {α : Type} (sc : Scope) (random : Bytes) (steps : α → List DiskStep)
    (f : Disk → α) : Prop where
  confined : ∀ d, Confined sc random (steps (f d))
  agree : ∀ d d', sc.Agree d d' → f d' = f d

theorem within_of_idle {α : Type} {sc : Scope} {random : Bytes} {steps : α → List DiskStep} {a : α}
    (h : steps a = []) : Within sc random steps fun _ => a where
  confined _ := h ▸ .nil
  agree _ _ _ := rfl

theorem within_ite {α : Type} {sc : Scope} {random : Bytes} {steps : α → List DiskStep}
    {c : Prop} [Decidable c] {f g : Disk → α} (hf : c → Within sc random steps f)
    (hg : ¬ c → Within sc random steps g) :
    Within sc random steps fun d => if c then f d else g d := by
  split_ifs with h
  · exact hf h
  · exact hg h

theorem confined_writeTag {user name : Bytes} {p : Path} (h : filePath user name = some p)
    (random : Bytes) (now : ℤ) (o : FileWrite) (tag : Bytes) :
    Confined (.account user) random (writeTag now o user name tag) := by
  have htag := has_tagPath h
  cases o with
  | notOpened => exact .nil
  | cut k => exact .write htag (.write htag .nil)
  | done => exact .write htag (.write htag .nil)

theorem confined_removeFile (random : Bytes) (d : Disk) (o : Removal) (user name : Bytes) :
    Confined (.account user) random (removeFile d o user name).1 := by
  unfold removeFile
  split
  · exact .nil
  · next p hpath =>
    refine Confined.append ?_ ?_
    · split_ifs
      · exact .remove (has_filePath hpath) .nil
      · exact .nil
    · split_ifs
      · exact .remove (has_tagPath hpath) .nil
      · exact .nil

namespace Session

/-- Commands that act on one account. -/
def isFileCommand (cmd : Bytes) : Prop :=
  cmd = kStat ∨ cmd = kPutFile ∨ cmd = kGetFile ∨ cmd = kDelFile ∨ cmd = kList

/-- Commands that move ciphertext between machines. -/
def isChunkCommand (cmd : Bytes) : Prop := cmd = kPutChunk ∨ cmd = kGetChunk ∨ cmd = kDelChunk

instance : DecidablePred isFileCommand := fun cmd =>
  inferInstanceAs (Decidable (cmd = kStat ∨ cmd = kPutFile ∨ cmd = kGetFile ∨ cmd = kDelFile ∨
    cmd = kList))

instance : DecidablePred isChunkCommand := fun cmd =>
  inferInstanceAs (Decidable (cmd = kPutChunk ∨ cmd = kGetChunk ∨ cmd = kDelChunk))

/-- What a line may reach after what the connection has proved. -/
def scopeOf (s : SessionState) (line : Bytes) : Scope :=
  match (split line).head? with
  | none => .nothing
  | some cmd =>
      if isFileCommand cmd then if s.loggedIn then .account s.user else .nothing
      else if isChunkCommand cmd then if s.machineTrusted then .chunks else .nothing
      else .nothing

variable (env : SessionEnv) (s : SessionState) (f : List Bytes) (line input : Bytes)

theorem confined_storeBody {sc : Scope} {final : Path} (hfinal : sc.Has final) (size : ℕ)
    {after : List DiskStep} (hafter : Confined sc env.random after) :
    Confined sc env.random (storeBody env s final size after input).steps := by
  rcases storeBody_cases env s final size after input with ⟨-, -, hsteps⟩ | ⟨-, htemp⟩
  · rw [hsteps]
    exact .store hfinal hafter
  · exact confined_of_onTemp (Scope.ne_nothing hfinal) htemp

theorem doStat_within : Within (.account s.user) env.random Handled.steps
    fun d => doStat { env with disk := d } s line input where
  confined d := by
    unfold doStat
    split
    · split <;> exact .nil
    · exact .nil
  agree d d' h := by
    simp only [doStat, fileInfo_agree h]

theorem doPutFile_within : Within (.account s.user) env.random Handled.steps
    fun d => doPutFile { env with disk := d } s line input where
  confined d := by
    unfold doPutFile
    split
    · split
      · exact .nil
      · split
        · exact .nil
        · next hpath =>
          exact confined_storeBody _ s input (has_filePath hpath) _ (confined_writeTag hpath _ _ _ _)
    · exact .nil
  agree _ _ _ := rfl

theorem doGetFile_within : Within (.account s.user) env.random Handled.steps
    fun d => doGetFile { env with disk := d } s line input where
  confined d := by
    unfold doGetFile
    split
    · split <;> exact .nil
    · exact .nil
  agree d d' h := by
    simp only [doGetFile, getContent_agree h]
    rfl

theorem doDelFile_within : Within (.account s.user) env.random Handled.steps
    fun d => doDelFile { env with disk := d } s line input where
  confined d := by
    unfold doDelFile
    split
    · exact confined_removeFile _ _ _ _ _
    · exact .nil
  agree d d' h := by
    simp only [doDelFile, removeFile_agree h]

theorem doList_within : Within (.account s.user) env.random Handled.steps
    fun d => doList { env with disk := d } s input where
  confined _ := .nil
  agree d d' h := by
    simp only [doList, listFiles_agree h]

theorem doPutChunk_within : Within .chunks env.random Handled.steps
    fun d => doPutChunk { env with disk := d } s f input where
  confined d := by
    unfold doPutChunk
    split
    · split
      · exact .nil
      · next hpath =>
        split
        · exact .nil
        · exact confined_storeBody _ s input (has_chunkPath hpath) _ .nil
    · exact .nil
  agree _ _ _ := rfl

theorem doGetChunk_within : Within .chunks env.random Handled.steps
    fun d => doGetChunk { env with disk := d } s f input where
  confined d := by
    unfold doGetChunk
    split
    · split <;> exact .nil
    · exact .nil
  agree d d' h := by
    simp only [doGetChunk, getChunk_agree h]
    rfl

theorem doDelChunk_within : Within .chunks env.random Handled.steps
    fun d => doDelChunk { env with disk := d } s f input where
  confined d := by
    unfold doDelChunk
    split
    · split
      · exact .nil
      · next hpath =>
        dsimp only
        split_ifs
        · exact .remove (has_chunkPath hpath) .nil
        · exact .nil
    · exact .nil
  agree _ _ _ := rfl

theorem doLogin_steps : (doLogin env s f input).steps = [] := by
  unfold doLogin
  split
  · split_ifs <;> rfl
  · rfl

theorem doAuth_steps : (doAuth env s f input).steps = [] := by
  unfold doAuth
  split
  · split_ifs <;> rfl
  · rfl

theorem scopeOf_file {s : SessionState} {line cmd : Bytes} (hline : (split line).head? = some cmd)
    (hcmd : isFileCommand cmd) (h : s.loggedIn = true) : scopeOf s line = .account s.user := by
  simp only [scopeOf, hline, if_pos hcmd, h, if_true]

theorem scopeOf_chunk {s : SessionState} {line cmd : Bytes} (hline : (split line).head? = some cmd)
    (hcmd : isChunkCommand cmd) (h : s.machineTrusted = true) : scopeOf s line = .chunks := by
  have hfile : ¬ isFileCommand cmd := by
    rcases hcmd with rfl | rfl | rfl <;> decide
  simp only [scopeOf, hline, if_neg hfile, if_pos hcmd, h, if_true]

theorem handle_within : Within (scopeOf s line) env.random Handled.steps
    fun d => handle { env with disk := d } s line input := by
  simp only [handle]
  cases hline : split line with
  | nil => exact within_of_idle rfl
  | cons cmd fs =>
    have hhead : (split line).head? = some cmd := by rw [hline, List.head?_cons]
    refine within_ite (fun _ => within_of_idle rfl) fun _ => ?_
    refine within_ite (fun _ => within_of_idle rfl) fun _ => ?_
    refine within_ite (fun _ => within_of_idle rfl) fun _ => ?_
    refine within_ite (fun _ => within_of_idle (a := doLogin env s (cmd :: fs) input)
      (doLogin_steps _ _ _ _)) fun _ => ?_
    refine within_ite (fun _ => within_of_idle (a := doAuth env s (cmd :: fs) input)
      (doAuth_steps _ _ _ _)) fun _ => ?_
    refine within_ite (fun _ => within_of_idle rfl) fun hfile => ?_
    refine within_ite (fun _ => within_of_idle rfl) fun hchunk => ?_
    have hfile (h : isFileCommand cmd) : scopeOf s line = .account s.user :=
      scopeOf_file hhead h ((Bool.not_eq_false _).mp fun hl => hfile ⟨h, hl⟩)
    have hchunk (h : isChunkCommand cmd) : scopeOf s line = .chunks :=
      scopeOf_chunk hhead h ((Bool.not_eq_false _).mp fun hl => hchunk ⟨h, hl⟩)
    refine within_ite (fun h => ?_) fun _ => ?_
    · exact hfile (.inl h) ▸ doStat_within env s line input
    refine within_ite (fun h => ?_) fun _ => ?_
    · exact hfile (.inr (.inl h)) ▸ doPutFile_within env s line input
    refine within_ite (fun h => ?_) fun _ => ?_
    · exact hfile (.inr (.inr (.inl h))) ▸ doGetFile_within env s line input
    refine within_ite (fun h => ?_) fun _ => ?_
    · exact hfile (.inr (.inr (.inr (.inl h)))) ▸ doDelFile_within env s line input
    refine within_ite (fun h => ?_) fun _ => ?_
    · exact hchunk (.inl h) ▸ doPutChunk_within env s _ input
    refine within_ite (fun h => ?_) fun _ => ?_
    · exact hchunk (.inr (.inl h)) ▸ doGetChunk_within env s _ input
    refine within_ite (fun h => ?_) fun _ => ?_
    · exact hchunk (.inr (.inr h)) ▸ doDelChunk_within env s _ input
    refine within_ite (fun h => ?_) fun _ => within_of_idle rfl
    · exact hfile (.inr (.inr (.inr (.inr h)))) ▸ doList_within env s input

end Session

namespace WebUi

/-- Requests that act on one account, whoever sends them. -/
def IsFileRoute (request : HttpRequest) : Prop :=
  (request.method = ascii "GET" ∧ request.path = ascii "/api/files") ∨
  (kFilesPrefix.isPrefixOf request.path = true ∧ (request.method = ascii "GET" ∨
    request.method = ascii "PUT" ∨ request.method = ascii "DELETE"))

instance : DecidablePred IsFileRoute := fun request =>
  inferInstanceAs (Decidable ((request.method = ascii "GET" ∧ request.path = ascii "/api/files") ∨
    (kFilesPrefix.isPrefixOf request.path = true ∧ (request.method = ascii "GET" ∨
      request.method = ascii "PUT" ∨ request.method = ascii "DELETE"))))

/-- What a request may reach with the bearer token it carries. -/
def scopeOf (clock : ℕ) (entries : BrowserSessions) (request : HttpRequest) : Scope :=
  if IsFileRoute request then
    match (authenticate clock entries request).2 with
    | none => .nothing
    | some user => .account user
  else .nothing

theorem isApi_of_isFileRoute {request : HttpRequest} (h : IsFileRoute request) :
    kApiPrefix.isPrefixOf request.path = true := by
  rcases h with ⟨-, hpath⟩ | ⟨hpath, -⟩
  · rw [hpath]
    decide
  · have hpre : kApiPrefix <+: kFilesPrefix := List.isPrefixOf_iff_prefix.mp (by decide)
    exact List.isPrefixOf_iff_prefix.mpr (hpre.trans (List.isPrefixOf_iff_prefix.mp hpath))

section

variable (env : SessionEnv) (user name query : Bytes) (size : ℕ) (input : Bytes)

theorem serveList_within : Within (.account user) env.random WebHandled.steps
    fun d => serveList { env with disk := d } user input where
  confined _ := .nil
  agree d d' h := by
    simp only [serveList, listFiles_agree h]

theorem serveGetFile_within : Within (.account user) env.random WebHandled.steps
    fun d => serveGetFile { env with disk := d } user name input where
  confined d := by
    unfold serveGetFile
    split <;> exact .nil
  agree d d' h := by
    simp only [serveGetFile, getContent_agree h]

theorem serveDeleteFile_within : Within (.account user) env.random WebHandled.steps
    fun d => serveDeleteFile { env with disk := d } user name input where
  confined _ := confined_removeFile _ _ _ _ _
  agree d d' h := by
    simp only [serveDeleteFile, removeFile_agree h]

theorem servePutFile_within : Within (.account user) env.random WebHandled.steps
    fun d => servePutFile { env with disk := d } user name query size input where
  confined d := by
    have htemp (st : DiskStep) (hst : st.OnTemp env.random) :
        Confined (.account user) env.random [st] := .temp Scope.noConfusion hst .nil
    unfold servePutFile
    split
    · exact .nil
    · next final hfinal =>
      have hpath : filePath user name = some final := by
        split_ifs at hfinal
        exact hfinal
      split
      · exact .nil
      · split_ifs
        · exact .temp Scope.noConfusion (.inl ⟨_, rfl⟩) (htemp _ (.inr rfl))
        · exact .temp Scope.noConfusion (.inl ⟨_, rfl⟩) (htemp _ (.inr rfl))
      · split_ifs
        · exact .temp Scope.noConfusion (.inl ⟨_, rfl⟩) (htemp _ (.inr rfl))
        · exact .temp Scope.noConfusion (.inl ⟨_, rfl⟩) (htemp _ (.inr rfl))
        · exact .store (has_filePath hpath) (confined_writeTag hpath _ _ _ _)
  agree _ _ _ := rfl

end

variable (env : WebEnv) (entries : BrowserSessions) (request : HttpRequest) (input : Bytes)

theorem serveUser_within (user : Bytes) :
    Within (.account user) env.random WebHandled.steps
      fun d => serveUser { env with disk := d } user request input := by
  unfold serveUser
  refine within_ite (fun _ => serveList_within env.toSessionEnv _ _) fun hlist => ?_
  refine within_ite (fun _ => serveGetFile_within env.toSessionEnv _ _ _) fun _ => ?_
  refine within_ite (fun _ => servePutFile_within env.toSessionEnv _ _ _ _ _) fun _ => ?_
  refine within_ite (fun _ => serveDeleteFile_within env.toSessionEnv _ _ _) fun _ => ?_
  exact within_of_idle rfl

theorem serveUser_of_other (user : Bytes) (h : ¬ IsFileRoute request) :
    serveUser env user request input =
      respond 404 (.error "no such route") (drainBody request input) := by
  unfold serveUser
  rw [if_neg fun hc => h (.inl hc), if_neg fun hc => h (.inr ⟨hc.1, .inl hc.2⟩),
    if_neg fun hc => h (.inr ⟨hc.1, .inr (.inl hc.2)⟩),
    if_neg fun hc => h (.inr ⟨hc.1, .inr (.inr hc.2)⟩)]

theorem serveLogin_steps : (serveLogin env entries request input).2.steps = [] := by
  simp only [serveLogin]
  split_ifs
  · rfl
  · rfl
  · split
    · split_ifs <;> rfl
    · rfl

/-- What is answered apart from what happens to the session map. -/
theorem handle_snd : (handle env entries request input).2 =
    if request.method = ascii "GET" ∧
        (request.path = ascii "/" ∨ request.path = ascii "/index.html") then
      respond 200 .page input
    else if request.method = ascii "POST" ∧ request.path = ascii "/api/login" then
      (serveLogin env entries request input).2
    else if request.method = ascii "POST" ∧ request.path = ascii "/api/logout" then
      respond 200 .ok (drainBody request input)
    else if kApiPrefix.isPrefixOf request.path then
      (authenticate env.clock entries request).2.elim
        (respond 401 (.error "not signed in") (drainBody request input))
        fun user => serveUser env user request input
    else serveUser env [] request input := by
  unfold handle
  split_ifs
  · rfl
  · rfl
  · rfl
  · rcases authenticate env.clock entries request with ⟨entries', _ | user⟩ <;> rfl
  · rfl

theorem handle_within : Within (scopeOf env.clock entries request) env.random WebHandled.steps
    fun d => (handle { env with disk := d } entries request input).2 := by
  simp only [handle_snd]
  refine within_ite (fun _ => within_of_idle rfl) fun _ => ?_
  refine within_ite (fun _ => within_of_idle (a := (serveLogin env entries request input).2)
    (serveLogin_steps _ _ _ _)) fun _ => ?_
  refine within_ite (fun _ => within_of_idle rfl) fun _ => ?_
  by_cases hroute : IsFileRoute request
  · rw [scopeOf, if_pos hroute]
    refine within_ite (fun _ => ?_) fun h => absurd (isApi_of_isFileRoute hroute) h
    cases (authenticate env.clock entries request).2 with
    | none => exact within_of_idle rfl
    | some user => exact serveUser_within env request input user
  · simp only [serveUser_of_other _ _ _ _ hroute]
    refine within_ite (fun _ => ?_) fun _ => within_of_idle rfl
    cases (authenticate env.clock entries request).2 with
    | none => exact within_of_idle rfl
    | some user => exact within_of_idle rfl

end WebUi

end PersonalCloud
