import PersonalCloud.Library.Machine
import PersonalCloud.Server.Transfer

/-! Any number of uploads and deletes on one store, step by step and in any order. -/
namespace PersonalCloud

open Store Transfer

namespace Traffic

/-- The uploads of a run, by number. The names of their temporary files are distinct. -/
structure Uploads where
  request : ℕ → PutRequest
  random_inj : Function.Injective fun i => (request i).random

/-- An upload that got as far as its rename, or a delete that was carried out. -/
inductive Completed where
  | stored (i : ℕ) (p : Path)
  | deleted (p : Path)
  deriving DecidableEq

structure State where
  disk : Disk
  puts : ℕ → PutPc
  log : List Completed

inductive Event where
  | put (i : ℕ) (e : PutEnv)
  /-- `DELFILE`, and `DELETE` from a browser. -/
  | delFile (o : Removal) (user name : Bytes)
  | delChunk (removes : Bool) (id : Bytes)

def start (d : Disk) : State := ⟨d, fun _ => .opening, []⟩

def renamed (i : ℕ) : PutPc → PutPc → List Completed
  | .storing final, .finished (some true) => [.stored i final]
  | _, _ => []

def step (U : Uploads) (s : State) : Event → State
  | .put i e =>
      let x := putStep (U.request i) s.disk e (s.puts i)
      { disk := s.disk.run x.1
        puts := Function.update s.puts i x.2
        log := renamed i (s.puts i) x.2 ++ s.log }
  | .delFile o user name =>
      { s with
        disk := s.disk.run (removeFile s.disk o user name).1
        log := (if o.file then ((filePath user name).map Completed.deleted).toList else []) ++ s.log }
  | .delChunk removes id =>
      match chunkPath id with
      | none => s
      | some path =>
          if removes then
            { s with disk := s.disk.run [.remove path], log := .deleted path :: s.log }
          else s

/-- The content of a path that held `initial` before: the body of the last upload to it, or nothing
after a delete. -/
def contentAfter (U : Uploads) (initial : Option Bytes) (p : Path) : List Completed → Option Bytes
  | [] => initial
  | .stored i q :: log => if q = p then some (U.request i).body else contentAfter U initial p log
  | .deleted q :: log => if q = p then none else contentAfter U initial p log

/-- A rename on record was that of a complete body to the place it was meant for, and its upload
is over. -/
def Completed.Real (U : Uploads) (puts : ℕ → PutPc) : Completed → Prop
  | stored i p => puts i = .finished (some true) ∧ (U.request i).kind.final = some p ∧
      (U.request i).size ≤ (U.request i).incoming.length
  | deleted p => IsStored p

structure Inv (U : Uploads) (d₀ : Disk) (s : State) : Prop where
  sound : ∀ i, (s.puts i).Sound (U.request i) s.disk
  content : ∀ p, IsStored p → s.disk.content p = contentAfter U (d₀.content p) p s.log
  real : ∀ c ∈ s.log, c.Real U s.puts
  /-- Each upload that has reported success is on record. -/
  recorded : ∀ i, s.puts i = .finished (some true) → ∃ p, .stored i p ∈ s.log

variable {U : Uploads} {d₀ : Disk} {s : State}

theorem inv_start (U : Uploads) (d : Disk) : Inv U d (start d) where
  sound _ := trivial
  content _ _ := rfl
  real c hc := by simp [start] at hc
  recorded i h := by simp [start] at h

theorem content_run_ne {steps : List DiskStep} {d : Disk} {random : Bytes} {p : Path}
    (h : ∀ st ∈ steps, st.OnTemp random) (hp : IsStored p ∨ ∃ r, r ≠ random ∧ p = tempPath r) :
    (d.run steps).content p = d.content p := by
  refine content_run_temp h ?_
  rcases hp with hp | ⟨r, hr, rfl⟩
  · exact hp.ne_temp random
  · exact fun he => hr (tempPath_inj he)

theorem content_run_stored {r : PutRequest} {d : Disk} {final p : Path} {now : ℤ} {o : FileWrite}
    (htemp : d.content (tempPath r.random) = some r.body)
    (hp : IsStored p ∨ ∃ random, random ≠ r.random ∧ p = tempPath random) :
    (d.run (.rename (tempPath r.random) final :: r.kind.tagSteps now o)).content p =
      if final = p then some r.body else d.content p := by
  have hside : IsStored p ∨ ∃ random, p = tempPath random :=
    hp.imp_right fun ⟨random, _, h⟩ => ⟨random, h⟩
  rw [show (.rename (tempPath r.random) final :: r.kind.tagSteps now o) =
    [.rename (tempPath r.random) final] ++ r.kind.tagSteps now o from rfl, run_append,
    content_run_tagSteps _ _ _ _ hside]
  split_ifs with h
  · rw [← h]
    exact content_rename htemp
  · refine content_rename_ne ?_ fun he => h he.symm
    rcases hp with hp | ⟨random, hr, rfl⟩
    · exact hp.ne_temp _
    · exact fun he => hr (tempPath_inj he)

theorem renamed_eq_nil {i : ℕ} {pc pc' : PutPc}
    (h : pc' = .finished (some true) → pc = .finished (some true)) : renamed i pc pc' = [] := by
  unfold renamed
  split
  · exact absurd (h rfl) (by simp)
  · rfl

theorem inv_deleted {p : Path} {d : Disk} (h : Inv U d₀ s) (hp : IsStored p)
    (hd : ∀ q, IsStored q → d.content q = if p = q then none else s.disk.content q)
    (htemp : ∀ random, d.content (tempPath random) = s.disk.content (tempPath random)) :
    Inv U d₀ ⟨d, s.puts, .deleted p :: s.log⟩ where
  sound i := (h.sound i).mono (.inl (htemp _))
  content q hq := by
    show d.content q = _
    rw [hd q hq, contentAfter, h.content q hq]
  real c hc := by
    rcases List.mem_cons.mp hc with rfl | hc
    · exact hp
    · exact h.real c hc
  recorded i hi := by
    obtain ⟨q, hq⟩ := h.recorded i hi
    exact ⟨q, List.mem_cons_of_mem _ hq⟩

theorem inv_stored {i : ℕ} {final : Path} {d : Disk} (h : Inv U d₀ s)
    (hpc : s.puts i = .storing final) (hfinal : (U.request i).kind.final = some final)
    (hsize : (U.request i).size ≤ (U.request i).incoming.length)
    (hd : ∀ p, (IsStored p ∨ ∃ r, r ≠ (U.request i).random ∧ p = tempPath r) →
      d.content p = if final = p then some (U.request i).body else s.disk.content p) :
    Inv U d₀ ⟨d, Function.update s.puts i (.finished (some true)), .stored i final :: s.log⟩ where
  sound j := by
    show (Function.update s.puts i (.finished (some true)) j).Sound (U.request j) d
    by_cases hj : j = i
    · subst hj
      simpa [PutPc.Sound, hfinal] using hsize
    · rw [Function.update_of_ne hj]
      refine (h.sound j).mono (.inl ?_)
      rw [hd _ (.inr ⟨_, fun he => hj (U.random_inj he), rfl⟩),
        if_neg ((PutKind.isStored hfinal).ne_temp _)]
  content p hp := by
    show d.content p = _
    rw [hd p (.inl hp), contentAfter, h.content p hp]
  real c hc := by
    rcases List.mem_cons.mp hc with rfl | hc
    · exact ⟨Function.update_self .., hfinal, hsize⟩
    · have hreal := h.real c hc
      cases c with
      | deleted p => exact hreal
      | stored j p =>
        have hj : j ≠ i := by
          rintro rfl
          exact absurd (hpc.symm.trans hreal.1) (by simp)
        exact ⟨(Function.update_of_ne hj _ _).trans hreal.1, hreal.2⟩
  recorded j hj := by
    by_cases hji : j = i
    · exact ⟨final, by simp [hji]⟩
    · obtain ⟨p, hp⟩ := h.recorded j ((Function.update_of_ne hji _ _).symm.trans hj)
      exact ⟨p, List.mem_cons_of_mem _ hp⟩

theorem inv_temp {i : ℕ} {pc : PutPc} {d : Disk} (h : Inv U d₀ s) (hpc : pc.Sound (U.request i) d)
    (htrue : pc = .finished (some true) ↔ s.puts i = .finished (some true))
    (hd : ∀ p, (IsStored p ∨ ∃ r, r ≠ (U.request i).random ∧ p = tempPath r) →
      d.content p = s.disk.content p) :
    Inv U d₀ ⟨d, Function.update s.puts i pc, s.log⟩ where
  sound j := by
    show (Function.update s.puts i pc j).Sound (U.request j) d
    by_cases hj : j = i
    · subst hj
      rwa [Function.update_self]
    · rw [Function.update_of_ne hj]
      exact (h.sound j).mono (.inl (hd _ (.inr ⟨_, fun he => hj (U.random_inj he), rfl⟩)))
  content p hp := (hd p (.inl hp)).trans (h.content p hp)
  real c hc := by
    have hreal := h.real c hc
    cases c with
    | deleted p => exact hreal
    | stored j p =>
      refine ⟨?_, hreal.2⟩
      show Function.update s.puts i pc j = _
      by_cases hj : j = i
      · subst hj
        rw [Function.update_self]
        exact htrue.mpr hreal.1
      · rw [Function.update_of_ne hj]
        exact hreal.1
  recorded j hj := by
    by_cases hji : j = i
    · subst hji
      exact h.recorded j (htrue.mp ((Function.update_self ..).symm.trans hj))
    · exact h.recorded j ((Function.update_of_ne hji _ _).symm.trans hj)

theorem inv_put (h : Inv U d₀ s) (i : ℕ) (e : PutEnv) : Inv U d₀ (step U s (.put i e)) := by
  have hsound := putStep_sound (e := e) (h.sound i)
  rcases putStep_cases (e := e) (h.sound i) with
    ⟨final, now, tag, hpc, hfinal, hsize, htemp, hsteps, hpc'⟩ | ⟨htemp, hpc'⟩
  · have hlog : renamed i (s.puts i) (.finished (some true)) = [.stored i final] := by
      rw [hpc, renamed]
    simp only [step, hsteps, hpc', hlog]
    exact inv_stored h hpc hfinal hsize fun p hp => content_run_stored htemp hp
  · have hlog : renamed i (s.puts i) (putStep (U.request i) s.disk e (s.puts i)).2 = [] :=
      renamed_eq_nil hpc'
    simp only [step, hlog, List.nil_append]
    refine inv_temp h hsound ⟨hpc', ?_⟩ fun p hp => content_run_ne htemp hp
    intro hdone
    rw [hdone, putStep]

theorem removeFile_eq {d : Disk} {user name : Bytes} {p : Path} (o : Removal)
    (h : filePath user name = some p) :
    (removeFile d o user name).1 =
      (if o.file && (d.lookup p).isSome then [.remove p] else []) ++
        if o.sidecar then [.remove (tagPath user name)] else [] := by
  simp only [removeFile, h]

theorem content_run_removeFile {d : Disk} {user name : Bytes} {p q : Path} (o : Removal)
    (h : filePath user name = some p) (hq : q ≠ tagPath user name) :
    (d.run (removeFile d o user name).1).content q =
      if o.file = true ∧ p = q then none else d.content q := by
  have hside : (d.run (removeFile d o user name).1).content q =
      (d.run (if o.file && (d.lookup p).isSome then [.remove p] else [])).content q := by
    rw [removeFile_eq o h, run_append]
    split_ifs
    · exact content_remove_ne hq
    · rfl
    · exact content_remove_ne hq
    · rfl
  rw [hside]
  by_cases hpq : p = q
  · subst hpq
    by_cases hfile : o.file = true
    · by_cases hthere : (d.lookup p).isSome = true
      · simp [hfile, hthere, Disk.run]
      · have hnone : d.lookup p = none := by simpa using hthere
        simp [hfile, hnone, Disk.run, Disk.content]
    · simp [hfile, Disk.run]
  · rw [if_neg (c := o.file = true ∧ p = q) fun h => hpq h.2]
    split_ifs
    · exact content_remove_ne fun he => hpq he.symm
    · rfl

theorem inv_step (h : Inv U d₀ s) (ev : Event) : Inv U d₀ (step U s ev) := by
  cases ev with
  | put i e => exact inv_put h i e
  | delFile o user name =>
    cases hpath : filePath user name with
    | none => simpa [step, removeFile, hpath, Disk.run] using h
    | some p =>
      have hstored : IsStored p := .inl ⟨user, name, hpath⟩
      have hcontent {q : Path} (hq : IsStored q ∨ ∃ random, q = tempPath random) :
          (s.disk.run (removeFile s.disk o user name).1).content q =
            if o.file = true ∧ p = q then none else s.disk.content q := by
        refine content_run_removeFile o hpath ?_
        rcases hq with hq | ⟨random, rfl⟩
        · exact hq.ne_tag user name
        · exact tempPath_ne_tagPath
      by_cases hfile : o.file = true
      · simp only [step, hpath, hfile, Option.map_some, Option.toList_some, ↓reduceIte,
          List.singleton_append]
        refine inv_deleted h hstored (fun q hq => ?_) fun random => ?_
        · simpa [hfile] using hcontent (.inl hq)
        · rw [hcontent (.inr ⟨random, rfl⟩), if_neg fun hp => hstored.ne_temp random hp.2]
      · simp only [step, hfile, Bool.false_eq_true, ↓reduceIte, List.nil_append]
        refine ⟨fun i => (h.sound i).mono (.inl ?_), fun q hq => ?_, h.real, h.recorded⟩
        · rw [hcontent (.inr ⟨_, rfl⟩), if_neg fun hp => hfile hp.1]
        · show (s.disk.run _).content q = _
          rw [hcontent (.inl hq), if_neg fun hp => hfile hp.1, h.content q hq]
  | delChunk removes id =>
    simp only [step]
    split
    · exact h
    · next path hpath =>
      have hstored : IsStored path := .inr ⟨id, hpath⟩
      split_ifs
      · refine inv_deleted h hstored (fun q hq => ?_) fun random => ?_
        · split_ifs with hq
          · subst hq
            exact content_remove _ _
          · exact content_remove_ne fun he => hq he.symm
        · exact content_remove_ne (hstored.ne_temp random).symm
      · exact h

theorem step_puts_ne {i : ℕ} {ev : Event} (hev : ∀ e, ev ≠ .put i e) :
    (step U s ev).puts i = s.puts i := by
  cases ev with
  | put j e =>
    refine Function.update_of_ne ?_ _ _
    rintro rfl
    exact hev e rfl
  | delFile o user name => rfl
  | delChunk removes id =>
    simp only [step]
    split
    · rfl
    · split_ifs <;> rfl

theorem step_temp_ne (h : Inv U d₀ s) {i : ℕ} {ev : Event} (hev : ∀ e, ev ≠ .put i e) :
    (step U s ev).disk.content (tempPath (U.request i).random) =
      s.disk.content (tempPath (U.request i).random) := by
  cases ev with
  | put j e =>
    have hij : i ≠ j := by
      rintro rfl
      exact hev e rfl
    have hother : (U.request i).random ≠ (U.request j).random := fun he => hij (U.random_inj he)
    rcases putStep_cases (e := e) (h.sound j) with
      ⟨final, now, tag, -, hfinal, -, htemp, hsteps, -⟩ | ⟨htemp, -⟩
    · simp only [step, hsteps]
      rw [content_run_stored htemp (.inr ⟨_, hother, rfl⟩),
        if_neg ((PutKind.isStored hfinal).ne_temp _)]
    · exact content_run_ne htemp (.inr ⟨_, hother, rfl⟩)
  | delFile o user name =>
    cases hpath : filePath user name with
    | none => simp [step, removeFile, hpath, Disk.run]
    | some p =>
      have hstored : IsStored p := .inl ⟨user, name, hpath⟩
      simp only [step]
      rw [content_run_removeFile o hpath tempPath_ne_tagPath,
        if_neg fun hp => hstored.ne_temp _ hp.2]
  | delChunk removes id =>
    simp only [step]
    split
    · rfl
    · next path hpath =>
      split_ifs
      · exact content_remove_ne (IsStored.ne_temp (.inr ⟨id, hpath⟩) _).symm
      · rfl

theorem step_log (U : Uploads) (s : State) (ev : Event) :
    (step U s ev).log = s.log ∨ ∃ c, (step U s ev).log = c :: s.log := by
  cases ev with
  | put i e =>
    simp only [step, renamed]
    split
    · exact .inr ⟨_, rfl⟩
    · exact .inl rfl
  | delFile o user name =>
    simp only [step]
    cases filePath user name with
    | none => simp
    | some p =>
      split_ifs
      · exact .inr ⟨_, rfl⟩
      · exact .inl rfl
  | delChunk removes id =>
    simp only [step]
    split
    · exact .inl rfl
    · split_ifs
      · exact .inr ⟨_, rfl⟩
      · exact .inl rfl

theorem inv_run (U : Uploads) (d₀ : Disk) (es : List Event) :
    Inv U d₀ (Machine.run (step U) (start d₀) es) :=
  Machine.inv_run_all (I := Inv U d₀) (fun _ ev hs => inv_step hs ev) (inv_start U d₀) es

/-- Stored files are whole. In every run, whatever fails and wherever connections drop, the content
of a file or chunk is the complete body of the last upload to it that got as far as its rename, or
nothing after a later delete, or what was there before. Exactly the uploads that end in success are
among those, and no other step of an upload changes a file or chunk. -/
theorem stored_whole (U : Uploads) (d₀ : Disk) (es : List Event) :
    let s := Machine.run (step U) (start d₀) es
    (∀ p, IsStored p → s.disk.content p = contentAfter U (d₀.content p) p s.log) ∧
    (∀ i p, .stored i p ∈ s.log → (U.request i).kind.final = some p ∧
      (U.request i).body.length = (U.request i).size) ∧
    (∀ i, s.puts i = .finished (some true) ↔ ∃ p, .stored i p ∈ s.log) ∧
    ∀ i e p, IsStored p → (step U s (.put i e)).puts i ≠ .finished (some true) →
      (step U s (.put i e)).disk.content p = s.disk.content p := by
  have hinv := inv_run U d₀ es
  refine ⟨hinv.content, fun i p hp => ?_, fun i => ⟨hinv.recorded i, ?_⟩, ?_⟩
  · obtain ⟨-, hfinal, hsize⟩ := hinv.real _ hp
    exact ⟨hfinal, by rw [PutRequest.body, List.length_take, Nat.min_eq_left hsize]⟩
  · rintro ⟨p, hp⟩
    exact (hinv.real _ hp).1
  · intro i e p hp hopen
    rcases putStep_cases (e := e) (hinv.sound i) with
      ⟨_, _, _, -, -, -, -, -, hpc⟩ | ⟨htemp, -⟩
    · exact absurd ((Function.update_self ..).trans hpc) hopen
    · exact content_run_ne htemp (.inl hp)

def sampleUploads : Uploads where
  request i := ⟨.putFile (ascii "ann") (ascii "a") [], 2, List.replicate i 0,
    if i = 0 then [1, 2] else [3]⟩
  random_inj i j h := by simpa using congrArg List.length h

/-- The upload that is cut short is not seen. -/
theorem stored_whole_sample :
    (Machine.run (step sampleUploads) (start ∅)
      ([0, 0, 1, 0, 0, 1, 1].map fun i => .put i ⟨0, true, .accept 0, true, .done⟩)).disk.content
        [kUsersDir, ascii "ann", kFilesDir, ascii "a"] = some [1, 2] := by
  have hstored : IsStored [kUsersDir, ascii "ann", kFilesDir, ascii "a"] :=
    .inl ⟨ascii "ann", ascii "a", by decide +kernel⟩
  exact ((stored_whole sampleUploads ∅ _).1 _ hstored).trans (by decide +kernel)

end Traffic

end PersonalCloud
