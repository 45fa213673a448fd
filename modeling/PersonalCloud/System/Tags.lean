import PersonalCloud.Server.WebUi
import PersonalCloud.Library.Machine

/-! The dedup tag reported for a name and the stream stored under it: content and tag are replaced
by separate steps, any of which may fail or be the last one before the server stops. -/
namespace PersonalCloud

open Proto Session Store

/-- The requests that change files or tags. The store in `env` is replaced by the current one. -/
inductive FileRequest where
  | putFile (env : SessionEnv) (s : SessionState) (line input : Bytes)
  | webPut (env : SessionEnv) (user name query : Bytes) (contentLength : ℕ) (input : Bytes)
  | delFile (env : SessionEnv) (s : SessionState) (line input : Bytes)
  | webDelete (env : SessionEnv) (user name input : Bytes)
  | lookup

namespace FileRequest

/-- Lines and queries come out of the line reader, so they contain no line break. -/
def Valid : FileRequest → Prop
  | putFile _ _ line _ => 10 ∉ line
  | webPut _ _ _ query _ _ => 10 ∉ query
  | _ => True

def steps (d : Disk) : FileRequest → List DiskStep
  | putFile env s line input => (doPutFile { env with disk := d } s line input).steps
  | webPut env user name query contentLength input =>
      (WebUi.servePutFile { env with disk := d } user name query contentLength input).steps
  | delFile env s line input => (doDelFile { env with disk := d } s line input).steps
  | webDelete env user name input =>
      (WebUi.serveDeleteFile { env with disk := d } user name input).steps
  | lookup => []

def upload : FileRequest → Option (Bytes × Bytes × Bytes)
  | putFile _ s line _ =>
      match splitN line 4 with
      | [_, _, tag, name] => some (s.user, name, tag)
      | _ => none
  | webPut _ user name query _ _ => some (user, name, WebUi.queryTag query)
  | _ => none

/-- How the write of the sidecar would end in this request. -/
def tagWrite : FileRequest → FileWrite
  | putFile env _ _ _ => env.tag
  | webPut env _ _ _ _ _ => env.tag
  | _ => .done

end FileRequest

def DiskStep.isRename : DiskStep → Bool
  | rename _ _ => true
  | _ => false

/-- The store, and for each name the tag carried by the upload whose stream is stored there. -/
structure Tracked where
  disk : Disk
  carried : Bytes → Bytes → Option Bytes

structure RequestRun where
  request : FileRequest
  valid : request.Valid
  stop : ℕ

def Tracked.step (x : Tracked) (e : RequestRun) : Tracked :=
  let done := (e.request.steps x.disk).take e.stop
  { disk := x.disk.run done
    carried :=
      match e.request.upload with
      | some (user, name, tag) =>
          if done.any DiskStep.isRename then
            fun u n => if u = user ∧ n = name then some tag else x.carried u n
          else x.carried
      | none => x.carried }

def Tracked.empty : Tracked := ⟨∅, fun _ _ => none⟩

/-- A tag reported for a name was carried by the upload of the stream stored there. -/
def Truthful (x : Tracked) : Prop :=
  ∀ user name size tag, fileInfo x.disk user name = some (size, tag) → tag ≠ [] →
    tag ≠ ascii "-" → x.carried user name = some tag

/-- A tag in a sidecar that does no harm next to a stream uploaded with `tag`. -/
def Harmless (shown tag : Bytes) : Prop := shown = [] ∨ shown = ascii "-" ∨ shown = tag

/-- How the write of a sidecar ends when only `stop` steps of the upload are carried out. -/
def endOf (o : FileWrite) (stop : ℕ) : FileWrite :=
  match o with
  | .notOpened => .notOpened
  | .cut k => if stop ≤ 2 then .notOpened else if stop = 3 then .cut 0 else .cut k
  | .done => if stop ≤ 2 then .notOpened else if stop = 3 then .cut 0 else .done

/-- The sidecar is written in full; or it is left alone and said nothing else before; or it is cut
off where what remains says nothing else. -/
def Settles (before tag : Bytes) : FileWrite → Prop
  | .notOpened => Harmless before tag
  | .cut k => Harmless (tag.take k) tag
  | .done => True

/-- If the upload gets as far as its rename, its sidecar settles. -/
def RequestRun.Settled (x : Tracked) (e : RequestRun) : Prop :=
  ∀ user name tag, e.request.upload = some (user, name, tag) →
    ((e.request.steps x.disk).take e.stop).any DiskStep.isRename = true →
    Settles (tagOf x.disk user name) tag (endOf e.request.tagWrite e.stop)

/-- The steps of a request: some on a temporary file only, a whole upload, or a removal. -/
inductive FileRequest.Does (r : FileRequest) : List DiskStep → Prop where
  | temp (random : Bytes) (steps : List DiskStep) (h : ∀ st ∈ steps, st.OnTemp random) :
      Does r steps
  | upload (user name tag random content : Bytes) (final : Path) (now : ℤ)
      (hupload : r.upload = some (user, name, tag)) (hfinal : filePath user name = some final)
      (htag : 10 ∉ tag) :
      Does r (uploadSteps (tempPath random) final content now r.tagWrite user name tag)
  | removal (user name : Bytes) (path : Path) (file sidecar : Bool) (hnone : r.upload = none)
      (hpath : filePath user name = some path) :
      Does r ((if file then [.remove path] else []) ++
        if sidecar then [.remove (tagPath user name)] else [])

private theorem does_nil (r : FileRequest) : r.Does [] := .temp [] [] (by simp)

private theorem queryTag_subset (query : Bytes) : ∀ c ∈ WebUi.queryTag query, c ∈ query := by
  induction query with
  | nil => simp [WebUi.queryTag]
  | cons c cs ih =>
    unfold WebUi.queryTag
    split_ifs
    · exact fun x hx => List.mem_of_mem_drop hx
    · exact fun x hx => List.mem_cons_of_mem _ (ih x hx)

/-- The body of an upload, either stored with its tag or dropped again. -/
private theorem storeBody_does {r : FileRequest} {env : SessionEnv} {s : SessionState}
    {user name tag : Bytes} (hupload : r.upload = some (user, name, tag))
    (hwrite : r.tagWrite = env.tag) {final : Path} (hfinal : filePath user name = some final)
    (htag : 10 ∉ tag) (size : ℕ) (input : Bytes) :
    r.Does (storeBody env s final size (writeTag env.now env.tag user name tag) input).steps := by
  rcases storeBody_cases env s final size (writeTag env.now env.tag user name tag) input with
    ⟨-, -, hsteps⟩ | ⟨-, htemp⟩
  · rw [hsteps, ← hwrite, ← uploadSteps]
    exact .upload user name tag env.random _ final env.now hupload hfinal htag
  · exact .temp env.random _ htemp

private theorem removeFile_does {r : FileRequest} (hnone : r.upload = none) (d : Disk)
    (o : Removal) (user name : Bytes) : r.Does (removeFile d o user name).1 := by
  unfold removeFile
  split
  · exact does_nil r
  · next path hpath => exact .removal user name path _ _ hnone hpath

theorem FileRequest.does_steps {r : FileRequest} (hr : r.Valid) (d : Disk) : r.Does (r.steps d) := by
  cases r with
  | putFile env s line input =>
    simp only [steps, doPutFile]
    split
    · next size tag name hsplit =>
      split
      · exact does_nil _
      · split
        · exact does_nil _
        · next final hfinal =>
          have hupload : (FileRequest.putFile env s line input).upload =
              some (s.user, name, tag) := by simp [upload, hsplit]
          have htag : 10 ∉ tag := by
            intro hmem
            exact hr (Tokens.mem_of_mem_fieldsN
              (hsplit ▸ (by simp) : tag ∈ splitN line 4) hmem)
          exact @storeBody_does _ { env with disk := d } _ _ _ _ hupload rfl _ hfinal htag _ _
    · exact does_nil _
  | webPut env user name query contentLength input =>
    have hupload : (FileRequest.webPut env user name query contentLength input).upload =
        some (user, name, WebUi.queryTag query) := rfl
    have htag : 10 ∉ WebUi.queryTag query := fun hmem => hr (queryTag_subset query 10 hmem)
    simp only [steps, WebUi.servePutFile]
    split
    · exact does_nil _
    · next final hif =>
      have hfinal : filePath user name = some final := by
        split_ifs at hif
        exact hif
      split
      · exact does_nil _
      · split_ifs
        · exact .temp env.random _ (by simp [DiskStep.OnTemp])
        · exact .temp env.random _ (by simp [DiskStep.OnTemp])
      · split_ifs
        · exact .temp env.random _ (by simp [DiskStep.OnTemp])
        · exact .temp env.random _ (by simp [DiskStep.OnTemp])
        · exact .upload user name _ env.random _ final env.now hupload hfinal htag
  | delFile env s line input =>
    simp only [steps, doDelFile]
    split
    · exact removeFile_does rfl _ _ _ _
    · exact does_nil _
  | webDelete env user name input => exact removeFile_does rfl _ _ _ _
  | lookup => exact does_nil _

section Reports

variable {d : Disk} {user name tag random content : Bytes} {final : Path} {now : ℤ}

theorem fileInfo_run_removal {path : Path} {steps : List DiskStep}
    (h : ∀ st ∈ steps, st = .remove path ∨ st = .remove (tagPath user name)) {u n : Bytes}
    {size : ℕ} {t : Bytes} (hinfo : fileInfo (d.run steps) u n = some (size, t)) (ht : t ≠ []) :
    fileInfo d u n = some (size, t) := by
  induction steps generalizing d with
  | nil => exact hinfo
  | cons st steps ih =>
    have hstep := ih (fun x hx => h x (List.mem_cons_of_mem _ hx)) hinfo
    obtain ⟨q, c, hq, hc, hsize, htag⟩ := fileInfo_eq_some.mp hstep
    have hkeep : ∀ p, (st.apply d).content p = d.content p ∨ (st.apply d).content p = none := by
      intro p
      rcases h st (by simp) with rfl | rfl
      · by_cases hp : p = path
        · exact .inr (hp ▸ content_remove _ _)
        · exact .inl (content_remove_ne hp)
      · by_cases hp : p = tagPath user name
        · exact .inr (hp ▸ content_remove _ _)
        · exact .inl (content_remove_ne hp)
    have hcontent : d.content q = some c := by
      rcases hkeep q with hq' | hq'
      · rw [← hq', hc]
      · rw [hq'] at hc
        contradiction
    have hside : tagOf d u n = t := by
      rcases hkeep (tagPath u n) with hs | hs
      · rw [tagOf, hs] at htag
        exact htag
      · rw [tagOf, hs] at htag
        exact absurd htag.symm ht
    exact fileInfo_eq_some.mpr ⟨q, c, hq, hcontent, hsize, hside⟩

/-- A cut-off line shows a part of the tag. -/
theorem firstLine_take (htag : 10 ∉ tag) (k : ℕ) : firstLine ((tag ++ [10]).take k) = tag.take k := by
  rcases Nat.le_total k tag.length with hk | hk
  · have hall : ∀ x ∈ tag.take k, decide (x ≠ 10) = true := by
      intro x hx
      simp only [decide_eq_true_eq]
      rintro rfl
      exact htag (List.mem_of_mem_take hx)
    rw [List.take_append_of_le_length hk, firstLine, List.takeWhile_eq_self_iff.mpr hall]
  · rcases Nat.eq_or_lt_of_le hk with rfl | hlt
    · rw [List.take_append_of_le_length le_rfl, List.take_length, firstLine,
        List.takeWhile_eq_self_iff.mpr]
      intro x hx
      simp only [decide_eq_true_eq]
      rintro rfl
      exact htag hx
    · rw [List.take_of_length_le (by simp; omega), firstLine_append_break htag,
        List.take_of_length_le hk]

/-- The tag shown once the write of a sidecar that showed `before` has ended. -/
def shownAfter (before tag : Bytes) : FileWrite → Bytes
  | .notOpened => before
  | .cut k => tag.take k
  | .done => tag

theorem settles_iff (before tag : Bytes) (o : FileWrite) :
    Settles before tag o ↔ Harmless (shownAfter before tag o) tag := by
  cases o with
  | notOpened => exact Iff.rfl
  | cut k => exact Iff.rfl
  | done => exact ⟨fun _ => .inr (.inr rfl), fun _ => trivial⟩

theorem fileInfo_upload (htag : 10 ∉ tag) (hfinal : filePath user name = some final)
    (o : FileWrite) :
    fileInfo (d.run (uploadSteps (tempPath random) final content now o user name tag)) user name =
      some (content.length, shownAfter (tagOf d user name) tag o) := by
  rw [fileInfo_run_upload o hfinal]
  cases o with
  | notOpened => rfl
  | cut k => simp only [firstLine_take htag, shownAfter]
  | done => simp only [firstLine_append_break htag, shownAfter]

theorem uploadSteps_take_early (o : FileWrite) {stop : ℕ} (h : stop ≤ 1) :
    (∀ st ∈ (uploadSteps (tempPath random) final content now o user name tag).take stop,
      st.OnTemp random) ∧
    ((uploadSteps (tempPath random) final content now o user name tag).take stop).any
      DiskStep.isRename = false := by
  interval_cases stop
  · simp
  · simp [uploadSteps, DiskStep.OnTemp, DiskStep.isRename]

/-- From the rename on an interrupted upload is one whose sidecar is left unfinished. -/
theorem uploadSteps_take_late (o : FileWrite) {stop : ℕ} (h : 2 ≤ stop) (p : Path) :
    (d.run ((uploadSteps (tempPath random) final content now o user name tag).take stop)).content p
      = (d.run (uploadSteps (tempPath random) final content now (endOf o stop) user name
          tag)).content p ∧
    ((uploadSteps (tempPath random) final content now o user name tag).take stop).any
      DiskStep.isRename = true := by
  obtain ⟨k, rfl⟩ : ∃ k, stop = k + 2 := ⟨stop - 2, by omega⟩
  have htake : (uploadSteps (tempPath random) final content now o user name tag).take (k + 2) =
      [.write (tempPath random) ⟨content, now⟩, .rename (tempPath random) final] ++
        (writeTag now o user name tag).take k := by
    simp [uploadSteps]
  refine ⟨?_, by simp [htake, DiskStep.isRename]⟩
  rw [htake, run_append, uploadSteps, run_append]
  generalize d.run [.write (tempPath random) ⟨content, now⟩, .rename (tempPath random) final] = d'
  have hopen : ((DiskStep.write (tagPath user name) ⟨[], now⟩).apply d').content p =
      (d'.run (writeTag now (.cut 0) user name tag)).content p := by
    by_cases hp : p = tagPath user name
    · subst hp
      simp [writeTag, Disk.run]
    · rw [content_write_ne hp, content_run_writeTag_ne _ _ hp]
  cases o with
  | notOpened => simp [writeTag, endOf]
  | cut j =>
    rcases k with _ | _ | k
    · simp [endOf, writeTag]
    · simpa [endOf, writeTag, Disk.run] using hopen
    · simp [endOf, writeTag]
  | done =>
    rcases k with _ | _ | k
    · simp [endOf, writeTag]
    · simpa [endOf, writeTag, Disk.run] using hopen
    · simp [endOf, writeTag]

end Reports

theorem truthful_step_of_quiet {x : Tracked} (hx : Truthful x) {e : RequestRun}
    {steps : List DiskStep} (hsteps : e.request.steps x.disk = steps)
    (hrename : (steps.take e.stop).any DiskStep.isRename = false)
    (hreport : ∀ u n size t, fileInfo (x.disk.run (steps.take e.stop)) u n = some (size, t) →
      t ≠ [] → fileInfo x.disk u n = some (size, t)) : Truthful (x.step e) ∧ e.Settled x := by
  constructor
  · intro u n size t hinfo ht hdash
    simp only [Tracked.step, hsteps] at hinfo
    have hcarried : (x.step e).carried = x.carried := by
      simp only [Tracked.step, hsteps, hrename]
      split <;> rfl
    rw [hcarried]
    exact hx u n size t (hreport u n size t hinfo ht) ht hdash
  · intro u n t _ hany
    rw [hsteps, hrename] at hany
    contradiction

theorem any_isRename_eq_false {steps : List DiskStep} {P : DiskStep → Prop}
    (h : ∀ st ∈ steps, P st) (hP : ∀ st, P st → st.isRename = false) (k : ℕ) :
    (steps.take k).any DiskStep.isRename = false := by
  rw [List.any_eq_false]
  intro st hst
  rw [hP st (h st (List.mem_of_mem_take hst))]
  exact Bool.false_ne_true

/-- For an upload that gets to its rename, settling is about its own name only. -/
theorem settled_iff_of_renamed {x : Tracked} {e : RequestRun} {user name tag : Bytes}
    (hupload : e.request.upload = some (user, name, tag))
    (hrenamed : ((e.request.steps x.disk).take e.stop).any DiskStep.isRename = true) :
    e.Settled x ↔ Harmless
      (shownAfter (tagOf x.disk user name) tag (endOf e.request.tagWrite e.stop)) tag := by
  rw [← settles_iff]
  constructor
  · intro h
    exact h user name tag hupload hrenamed
  · intro h u n t hut _
    rw [hupload] at hut
    obtain ⟨rfl, rfl, rfl⟩ : user = u ∧ name = n ∧ tag = t := by simpa using hut
    exact h

theorem truthful_step_of_renamed {x : Tracked} (hx : Truthful x) {e : RequestRun}
    {user name tag random content : Bytes} {final : Path} {now : ℤ}
    (hsteps : e.request.steps x.disk = uploadSteps (tempPath random) final content now
      e.request.tagWrite user name tag)
    (hupload : e.request.upload = some (user, name, tag))
    (hfinal : filePath user name = some final) (htag : 10 ∉ tag) (hstop : 2 ≤ e.stop) :
    Truthful (x.step e) ↔ e.Settled x := by
  have hlate (p : Path) :
      (x.disk.run ((uploadSteps (tempPath random) final content now e.request.tagWrite user
        name tag).take e.stop)).content p =
        (x.disk.run (uploadSteps (tempPath random) final content now
          (endOf e.request.tagWrite e.stop) user name tag)).content p ∧
      ((uploadSteps (tempPath random) final content now e.request.tagWrite user name
        tag).take e.stop).any DiskStep.isRename = true :=
    uploadSteps_take_late _ hstop p
  have hcongr (u n : Bytes) : fileInfo (x.step e).disk u n =
      fileInfo (x.disk.run (uploadSteps (tempPath random) final content now
        (endOf e.request.tagWrite e.stop) user name tag)) u n := by
    simp only [Tracked.step, hsteps]
    exact fileInfo_congr (fun p _ => (hlate p).1) u n
  have hany := (hlate []).2
  have hcarried : (x.step e).carried =
      fun u n => if u = user ∧ n = name then some tag else x.carried u n := by
    simp only [Tracked.step, hsteps, hupload, hany, ↓reduceIte]
  rw [settled_iff_of_renamed hupload (by rw [hsteps]; exact hany)]
  constructor
  · intro h
    by_contra hharm
    simp only [Harmless, not_or] at hharm
    obtain ⟨hne, hdash, hdiff⟩ := hharm
    have hinfo := hcongr user name
    rw [fileInfo_upload htag hfinal] at hinfo
    have hcar := h user name _ _ hinfo hne hdash
    rw [hcarried] at hcar
    simp only [and_self, ↓reduceIte, Option.some.injEq] at hcar
    exact hdiff hcar.symm
  · intro hharm u n size t hinfo ht hdash
    rw [hcongr] at hinfo
    rw [hcarried]
    by_cases hsame : u = user ∧ n = name
    · obtain ⟨rfl, rfl⟩ := hsame
      rw [fileInfo_upload htag hfinal] at hinfo
      simp only [Option.some.injEq, Prod.mk.injEq] at hinfo
      obtain ⟨-, rfl⟩ := hinfo
      have hshown := (hharm.resolve_left ht).resolve_left hdash
      simp [hshown]
    · rw [fileInfo_run_upload_ne _ hfinal hsame] at hinfo
      simp only [hsame, ↓reduceIte]
      exact hx u n size t hinfo ht hdash

/-- A request, cut off or not, keeps the reported tags truthful exactly if its sidecar settles. -/
theorem truthful_step_iff {x : Tracked} (hx : Truthful x) (e : RequestRun) :
    Truthful (x.step e) ↔ e.Settled x := by
  have hdoes := FileRequest.does_steps e.valid x.disk
  generalize hsteps : e.request.steps x.disk = steps at hdoes
  cases hdoes with
  | temp random steps htemp =>
    have htake : ∀ st ∈ steps.take e.stop, st.OnTemp random :=
      fun st hst => htemp st (List.mem_of_mem_take hst)
    have hrename : (steps.take e.stop).any DiskStep.isRename = false := by
      refine any_isRename_eq_false htemp (fun st hst => ?_) _
      rcases hst with ⟨node, rfl⟩ | rfl
      · rfl
      · rfl
    have h := truthful_step_of_quiet hx hsteps hrename fun u n size t hinfo _ => by
      rwa [fileInfo_run_temp htake] at hinfo
    exact ⟨fun _ => h.2, fun _ => h.1⟩
  | removal user name path file sidecar hnone hpath =>
    have hremove : ∀ st ∈ (if file then [DiskStep.remove path] else []) ++
        (if sidecar then [DiskStep.remove (tagPath user name)] else []),
        st = .remove path ∨ st = .remove (tagPath user name) := by
      intro st hst
      rw [List.mem_append] at hst
      rcases hst with hst | hst
      · left
        split_ifs at hst
        · exact List.mem_singleton.mp hst
        · simp at hst
      · right
        split_ifs at hst
        · exact List.mem_singleton.mp hst
        · simp at hst
    have hrename := any_isRename_eq_false hremove (fun st hst => by
      rcases hst with rfl | rfl
      · rfl
      · rfl) e.stop
    have h := truthful_step_of_quiet hx hsteps hrename fun u n size t hinfo ht =>
      fileInfo_run_removal (fun st hst => hremove st (List.mem_of_mem_take hst)) hinfo ht
    exact ⟨fun _ => h.2, fun _ => h.1⟩
  | upload user name tag random content final now hupload hfinal htag =>
    rcases Nat.lt_or_ge e.stop 2 with hstop | hstop
    · obtain ⟨htemp, hrename⟩ : (∀ st ∈ (uploadSteps (tempPath random) final content now
          e.request.tagWrite user name tag).take e.stop, st.OnTemp random) ∧
          ((uploadSteps (tempPath random) final content now e.request.tagWrite user name
            tag).take e.stop).any DiskStep.isRename = false :=
        uploadSteps_take_early _ (by omega)
      have h := truthful_step_of_quiet hx hsteps hrename fun u n size t hinfo _ => by
        rwa [fileInfo_run_temp htemp] at hinfo
      exact ⟨fun _ => h.2, fun _ => h.1⟩
    · exact truthful_step_of_renamed hx hsteps hupload hfinal htag hstop

theorem truthful_empty : Truthful Tracked.empty := by
  intro user name size tag h
  unfold fileInfo at h
  split at h
  · contradiction
  · simp [Tracked.empty, Disk.content] at h

/-- In a run of requests from an empty store, some of them cut off by a stop of the server, the
tags reported are truthful in every state exactly if every upload that gets to its rename settles
its sidecar. -/
theorem tags_truthful_iff (es : List RequestRun) :
    (∀ k, Truthful (Machine.run Tracked.step Tracked.empty (es.take k))) ↔
      Machine.Along Tracked.step (fun x e => e.Settled x) Tracked.empty es :=
  Machine.inv_iff_along (fun _ e hx => truthful_step_iff hx e) truthful_empty

def staleTagRun : List RequestRun :=
  let env : SessionEnv :=
    { verify := fun _ _ => false, token := [], disk := ∅, now := 0, random := [] }
  let s : SessionState := ⟨ascii "ann", true, false⟩
  [⟨.putFile env s (ascii "PUTFILE 1 t1 a") [1], (by decide : 10 ∉ ascii "PUTFILE 1 t1 a"), 4⟩,
    ⟨.putFile env s (ascii "PUTFILE 1 t2 a") [2], (by decide : 10 ∉ ascii "PUTFILE 1 t2 a"), 2⟩]

/-- The stream of the second upload is then reported with the tag of the first. -/
theorem staleTagRun_reported :
    fileInfo (Machine.run Tracked.step Tracked.empty staleTagRun).disk (ascii "ann") (ascii "a") =
      some (1, ascii "t1") ∧
    (Machine.run Tracked.step Tracked.empty staleTagRun).carried (ascii "ann") (ascii "a") =
      some (ascii "t2") := by
  decide +kernel

end PersonalCloud
