import PersonalCloud.System.Traffic

/-! Downloads among the uploads and deletes of other connections. The size is taken under the lock,
the file is opened later. -/
namespace PersonalCloud

open Store Transfer

namespace Downloads

/-- The store and the uploads, where each download stands, and what its name has held since the size
was taken. -/
structure State where
  traffic : Traffic.State
  gets : ℕ → GetPc
  held : ℕ → List Bytes

inductive Event where
  | other (ev : Traffic.Event)
  | get (j : ℕ) (e : GetEnv)

def start (d : Disk) : State := ⟨Traffic.start d, fun _ => .measuring, fun _ => []⟩

/-- Adds the version that is there now while the download is under way. -/
def observe (k : GetKind) (d : Disk) (before after : GetPc) (held : List Bytes) : List Bytes :=
  match before, after with
  | _, .measuring => held
  | .finished _, _ => held
  | _, _ => (k.path.bind d.content).toList ++ held

def step (U : Traffic.Uploads) (kind : ℕ → GetKind) (s : State) (ev : Event) : State :=
  let traffic :=
    match ev with
    | .other ev => Traffic.step U s.traffic ev
    | .get _ _ => s.traffic
  let gets :=
    match ev with
    | .other _ => s.gets
    | .get j e => Function.update s.gets j (getStep (kind j) s.traffic.disk e (s.gets j))
  ⟨traffic, gets, fun j => observe (kind j) traffic.disk (s.gets j) (gets j) (s.held j)⟩

/-- Everything that was announced and delivered is the whole of a version that the name held during
the request. -/
def Unmixed (s : State) : Prop :=
  ∀ j sent, s.gets j = .finished (some sent) → sent ∈ s.held j

/-- A download that opens its file finds no more than it has announced, or finds a continuation of
a version of the announced size that the name held during the request. -/
def FindsAnnounced (d : Disk) (held : List Bytes) (e : GetEnv) : GetPc → Prop
  | .opening path size => e.works = true → ∀ content ∈ d.content path,
      content.length ≤ size ∨ ∃ v ∈ held, v.length = size ∧ v <+: content
  | _ => True

instance (d : Disk) (held : List Bytes) (e : GetEnv) :
    ∀ pc, Decidable (FindsAnnounced d held e pc)
  | .opening path size => inferInstanceAs (Decidable (e.works = true → ∀ content ∈ d.content path,
      content.length ≤ size ∨ ∃ v ∈ held, v.length = size ∧ v <+: content))
  | .measuring | .sending .. | .finished _ => inferInstanceAs (Decidable True)

def OpensAnnounced (s : State) : Event → Prop
  | .get j e => FindsAnnounced s.traffic.disk (s.held j) e (s.gets j)
  | .other _ => True

instance (s : State) : ∀ ev, Decidable (OpensAnnounced s ev)
  | .get j e => inferInstanceAs (Decidable (FindsAnnounced s.traffic.disk (s.held j) e (s.gets j)))
  | .other _ => inferInstanceAs (Decidable True)

/-- What is known of a download on its way: an open file was a version during the request, and what
has been sent is the beginning of it. -/
def Sound (k : GetKind) (held : List Bytes) : GetPc → Prop
  | .measuring => True
  | .opening path _ => k.path = some path
  | .sending content size sent =>
      k.path.isSome ∧ content ∈ held ∧ sent <+: content ∧ sent.length ≤ size
  | .finished delivered => ∀ sent, delivered = some sent → ∃ v ∈ held, sent <+: v

/-- As long as every open meets the condition, so does every open file. -/
def Announced (held : List Bytes) : GetPc → Prop
  | .sending content size _ =>
      content.length ≤ size ∨ ∃ v ∈ held, v.length = size ∧ v <+: content
  | .finished (some sent) => sent ∈ held
  | _ => True

variable {U : Traffic.Uploads} {kind : ℕ → GetKind} {s : State}

theorem subset_observe (k : GetKind) (d : Disk) (before after : GetPc) (held : List Bytes) :
    held ⊆ observe k d before after held := by
  unfold observe
  split
  · exact List.Subset.refl _
  · exact List.Subset.refl _
  · exact List.subset_append_right _ _

theorem mem_observe {k : GetKind} {d : Disk} {before after : GetPc} {held : List Bytes} {v : Bytes}
    (h : v ∈ observe k d before after held) : v ∈ held ∨
      after ≠ .measuring ∧ (∀ delivered, before ≠ .finished delivered) ∧
        ∃ path, k.path = some path ∧ d.content path = some v := by
  unfold observe at h
  split at h
  · exact .inl h
  · exact .inl h
  · next hfinished hmeasuring =>
    rcases List.mem_append.mp h with h | h
    · exact .inr ⟨hmeasuring, hfinished, Option.bind_eq_some_iff.mp (Option.mem_toList.mp h)⟩
    · exact .inl h

theorem Sound.mono {k : GetKind} {held held' : List Bytes} {pc : GetPc} (h : Sound k held pc)
    (hsub : held ⊆ held') : Sound k held' pc := by
  cases pc with
  | measuring => trivial
  | opening path size => exact h
  | sending content size sent => exact ⟨h.1, hsub h.2.1, h.2.2⟩
  | finished delivered =>
    intro sent hsent
    obtain ⟨v, hv, hpre⟩ := h sent hsent
    exact ⟨v, hsub hv, hpre⟩

theorem Announced.mono {held held' : List Bytes} {pc : GetPc} (h : Announced held pc)
    (hsub : held ⊆ held') : Announced held' pc := by
  cases pc with
  | measuring | opening => trivial
  | sending content size sent =>
    rcases h with h | ⟨v, hv, h⟩
    · exact .inl h
    · exact .inr ⟨v, hsub hv, h⟩
  | finished delivered =>
    cases delivered with
    | none => trivial
    | some sent => exact hsub h

theorem sent_append_prefix {content sent : Bytes} (h : sent <+: content) (want : ℕ) :
    sent ++ (content.drop sent.length).take want <+: content := by
  obtain ⟨rest, rfl⟩ := h
  rw [List.drop_left, List.prefix_append_right_inj]
  exact List.take_prefix _ _

theorem getStep_sound {k : GetKind} {held : List Bytes} {pc : GetPc} (d : Disk) (e : GetEnv)
    (h : Sound k held pc) :
    Sound k (observe k d pc (getStep k d e pc) held) (getStep k d e pc) := by
  cases pc with
  | measuring =>
    simp only [getStep]
    split
    · simp [Sound]
    · next path hpath =>
      split
      · simp [Sound]
      · split_ifs
        · exact hpath
        · simp [Sound]
  | opening path size =>
    have hpath : k.path = some path := h
    rcases getStep_opening k d e path size with hpc | ⟨content, hcontent, -, hpc⟩
    · rw [hpc]
      simp [Sound]
    · rw [hpc]
      refine ⟨by simp [hpath], ?_, List.nil_prefix, Nat.zero_le _⟩
      simp [observe, hpath, hcontent]
  | sending content size sent =>
    obtain ⟨hpath, hheld, hpre, hlen⟩ := h
    simp only [getStep]
    split_ifs with hdone hsends
    · rintro _ ⟨rfl⟩
      exact ⟨content, subset_observe _ _ _ _ _ hheld, hpre⟩
    · refine ⟨hpath, subset_observe _ _ _ _ _ hheld, sent_append_prefix hpre _, ?_⟩
      simp only [List.length_append, List.length_take]
      omega
    · simp [Sound]
  | finished delivered => exact h.mono (subset_observe _ _ _ _ _)

/-- A delivery is complete when the announced number of bytes has gone out. -/
theorem getStep_announced {k : GetKind} {held : List Bytes} {pc : GetPc} (d : Disk) (e : GetEnv)
    (hsound : Sound k held pc) (h : Announced held pc)
    (hopen : FindsAnnounced d held e pc) :
    Announced (observe k d pc (getStep k d e pc) held) (getStep k d e pc) := by
  cases pc with
  | measuring =>
    simp only [getStep]
    split
    · trivial
    · split
      · trivial
      · split_ifs <;> trivial
  | opening path size =>
    rcases getStep_opening k d e path size with hpc | ⟨content, hcontent, hworks, hpc⟩
    · rw [hpc]
      trivial
    · rw [hpc]
      rcases hopen hworks content hcontent with hshort | ⟨v, hv, hcontinues⟩
      · exact .inl hshort
      · exact .inr ⟨v, subset_observe _ _ _ _ _ hv, hcontinues⟩
  | sending content size sent =>
    obtain ⟨-, hheld, hpre, hlen⟩ := hsound
    simp only [getStep]
    split_ifs with hdone hsends
    · have hbuffer : 0 < Config.kIoBufferSize := by decide
      have hall : sent.length = size := by omega
      refine subset_observe _ _ _ _ _ ?_
      rcases h with hshort | ⟨v, hv, hsize, hcontinues⟩
      · rw [hpre.eq_of_length_le (by omega)]
        exact hheld
      · have hsame : sent = v :=
          (List.prefix_of_prefix_length_le hpre hcontinues (by omega)).eq_of_length (by omega)
        rwa [hsame]
    · exact h.mono (subset_observe _ _ _ _ _)
    · trivial
  | finished delivered => exact h.mono (subset_observe _ _ _ _ _)

theorem step_forall {P : GetKind → List Bytes → GetPc → Prop} {ev : Event}
    (hmono : ∀ k held held' pc, P k held pc → held ⊆ held' → P k held' pc)
    (h : ∀ j, P (kind j) (s.held j) (s.gets j))
    (hget : ∀ j e, ev = .get j e → P (kind j)
      (observe (kind j) s.traffic.disk (s.gets j) (getStep (kind j) s.traffic.disk e (s.gets j))
        (s.held j)) (getStep (kind j) s.traffic.disk e (s.gets j))) (j : ℕ) :
    P (kind j) ((step U kind s ev).held j) ((step U kind s ev).gets j) := by
  cases ev with
  | other ev => exact hmono _ _ _ _ (h j) (subset_observe _ _ _ _ _)
  | get i e =>
    by_cases hj : j = i
    · subst hj
      simpa [step] using hget j e rfl
    · have hgets : (step U kind s (.get i e)).gets j = s.gets j := Function.update_of_ne hj _ _
      rw [hgets]
      exact hmono _ _ _ _ (h j) (subset_observe _ _ _ _ _)

theorem step_sound (h : ∀ j, Sound (kind j) (s.held j) (s.gets j)) (ev : Event) (j : ℕ) :
    Sound (kind j) ((step U kind s ev).held j) ((step U kind s ev).gets j) :=
  step_forall (P := Sound) (fun _ _ _ _ => Sound.mono) h (fun j e _ => getStep_sound _ e (h j)) j

/-- A download does not mix versions as long as every open finds what was announced. -/
theorem unmixed_run (U : Traffic.Uploads) (kind : ℕ → GetKind) (d₀ : Disk) (es : List Event)
    (h : Machine.Along (step U kind) OpensAnnounced (start d₀) es) (k : ℕ) :
    Unmixed (Machine.run (step U kind) (start d₀) (es.take k)) := by
  have hstart : (∀ j, Sound (kind j) ((start d₀).held j) ((start d₀).gets j)) ∧
      ∀ j, Announced ((start d₀).held j) ((start d₀).gets j) :=
    ⟨fun _ => trivial, fun _ => trivial⟩
  have hstep : ∀ (s : State) (ev : Event),
      ((∀ j, Sound (kind j) (s.held j) (s.gets j)) ∧ ∀ j, Announced (s.held j) (s.gets j)) →
      OpensAnnounced s ev → (∀ j, Sound (kind j) ((step U kind s ev).held j)
        ((step U kind s ev).gets j)) ∧
        ∀ j, Announced ((step U kind s ev).held j) ((step U kind s ev).gets j) := by
    intro s ev hs hopen
    refine ⟨step_sound hs.1 ev, ?_⟩
    refine step_forall (P := fun _ => Announced) (fun _ _ _ _ => Announced.mono) hs.2 fun j e hev => ?_
    subst hev
    exact getStep_announced _ e (hs.1 j) (hs.2 j) hopen
  have hinv := Machine.inv_run_take
    (I := fun s : State => (∀ j, Sound (kind j) (s.held j) (s.gets j)) ∧
      ∀ j, Announced (s.held j) (s.gets j)) hstep hstart h k
  intro j sent hsent
  have hannounced := hinv.2 j
  rwa [hsent] at hannounced

def sampleDisk : Disk := (∅ : Disk).insert [kUsersDir, ascii "ann", kFilesDir, ascii "a"] ⟨[9, 9, 9], 0⟩

def longerUpload : Traffic.Uploads where
  request i := ⟨.putFile (ascii "ann") (ascii "a") [], 5, List.replicate i 0, [1, 2, 3, 4, 5]⟩
  random_inj i j h := by simpa using congrArg List.length h

def uploading : List Event := List.replicate 4 (.other (.put 0 ⟨0, true, .accept 0, true, .done⟩))

def downloading (n : ℕ) : List Event := List.replicate n (.get 0 ⟨true, true⟩)

/-- The new version comes after the open: the old one is delivered whole. -/
theorem unmixed_run_opened_first :
    Unmixed (Machine.run (step longerUpload fun _ => .getFile (ascii "ann") (ascii "a"))
      (start sampleDisk) ((downloading 2 ++ uploading ++ downloading 2).take 8)) :=
  unmixed_run _ _ _ _ (by decide +kernel) 8

/-- The new version comes between the size and the open: three of its bytes are delivered as a
complete file, while the name never held those three bytes. -/
theorem versions_mixed :
    let s := Machine.run (step longerUpload fun _ => .getFile (ascii "ann") (ascii "a"))
      (start sampleDisk) (downloading 1 ++ uploading ++ downloading 3)
    s.gets 0 = .finished (some [1, 2, 3]) ∧ s.held 0 =
      [[1, 2, 3, 4, 5], [1, 2, 3, 4, 5], [1, 2, 3, 4, 5], [1, 2, 3, 4, 5], [9, 9, 9], [9, 9, 9],
        [9, 9, 9], [9, 9, 9]] ∧ ¬ Unmixed s := by
  have hrun : (Machine.run (step longerUpload fun _ => .getFile (ascii "ann") (ascii "a"))
      (start sampleDisk) (downloading 1 ++ uploading ++ downloading 3)).gets 0 =
        .finished (some [1, 2, 3]) ∧
      (Machine.run (step longerUpload fun _ => .getFile (ascii "ann") (ascii "a"))
      (start sampleDisk) (downloading 1 ++ uploading ++ downloading 3)).held 0 =
      [[1, 2, 3, 4, 5], [1, 2, 3, 4, 5], [1, 2, 3, 4, 5], [1, 2, 3, 4, 5], [9, 9, 9], [9, 9, 9],
        [9, 9, 9], [9, 9, 9]] := by
    decide +kernel
  generalize Machine.run (step longerUpload fun _ => .getFile (ascii "ann") (ascii "a"))
      (start sampleDisk) (downloading 1 ++ uploading ++ downloading 3) = s at hrun ⊢
  refine ⟨hrun.1, hrun.2, fun hunmixed => ?_⟩
  have hmem := hunmixed 0 _ hrun.1
  rw [hrun.2] at hmem
  exact absurd hmem (by decide)

/-- The name of a download has a content while the download is under way. -/
def HeldDuring (U : Traffic.Uploads) (kind : ℕ → GetKind) (d₀ : Disk) (es : List Event) (j : ℕ)
    (content : Bytes) : Prop :=
  ∃ k ≤ es.length, ∃ path, (kind j).path = some path ∧
    (Machine.run (step U kind) (start d₀) (es.take k)).traffic.disk.content path = some content ∧
    (Machine.run (step U kind) (start d₀) (es.take k)).gets j ≠ .measuring ∧
    ∀ delivered, (Machine.run (step U kind) (start d₀) (es.take (k - 1))).gets j ≠ .finished delivered

theorem heldDuring_of_mem (U : Traffic.Uploads) (kind : ℕ → GetKind) (d₀ : Disk) (es : List Event)
    {j : ℕ} {v : Bytes} (h : v ∈ (Machine.run (step U kind) (start d₀) es).held j) :
    HeldDuring U kind d₀ es j v := by
  induction es using List.reverseRecOn with
  | nil => simp [start] at h
  | append_singleton es ev ih =>
    have hlast : Machine.run (step U kind) (start d₀) (es ++ [ev]) =
        step U kind (Machine.run (step U kind) (start d₀) es) ev := Machine.run_append ..
    rw [hlast] at h
    rcases mem_observe h with h | ⟨hmeasuring, hfinished, path, hpath, hcontent⟩
    · obtain ⟨k, hk, path, hpath, hcontent, hduring⟩ := ih h
      refine ⟨k, hk.trans (by simp), path, hpath, ?_⟩
      rw [List.take_append_of_le_length hk, List.take_append_of_le_length (by omega)]
      exact ⟨hcontent, hduring⟩
    · refine ⟨(es ++ [ev]).length, le_rfl, path, hpath, ?_⟩
      rw [List.take_length, List.length_append, List.length_singleton, Nat.add_sub_cancel,
        List.take_left, hlast]
      exact ⟨hcontent, hmeasuring, hfinished⟩

/-- Whatever the uploads and deletes beside it, a download delivers nothing in full but the
beginning of a version that was stored under its name while it was under way. -/
theorem delivered_stored (U : Traffic.Uploads) (kind : ℕ → GetKind) (d₀ : Disk) (es : List Event)
    {j : ℕ} {sent : Bytes}
    (h : (Machine.run (step U kind) (start d₀) es).gets j = .finished (some sent)) :
    ∃ content, sent <+: content ∧ HeldDuring U kind d₀ es j content := by
  have hstart : ∀ j, Sound (kind j) ((start d₀).held j) ((start d₀).gets j) := fun _ => trivial
  have hsound := Machine.inv_run_all
    (I := fun s : State => ∀ j, Sound (kind j) (s.held j) (s.gets j))
    (fun s ev hs => step_sound (U := U) hs ev) hstart es j
  rw [h] at hsound
  obtain ⟨v, hv, hprefix⟩ := hsound sent rfl
  exact ⟨v, hprefix, heldDuring_of_mem U kind d₀ es hv⟩

theorem delivered_stored_mixed : ∃ content, [1, 2, 3] <+: content ∧
    HeldDuring longerUpload (fun _ => .getFile (ascii "ann") (ascii "a")) sampleDisk
      (downloading 1 ++ uploading ++ downloading 3) 0 content :=
  delivered_stored _ _ _ _ (by decide +kernel)

end Downloads

end PersonalCloud
