import PersonalCloud.System.Traffic

/-! Account and service commands on the root of a running server. Each is a process of its own that
begins with `Store::init`, which empties the directory of temporary files. -/
namespace PersonalCloud

open Store Transfer

namespace Commands

def kUsersFile : Path := [ascii "users.txt"]
def kNewUsersFile : Path := [ascii "users.txt.new"]

/-- Where a command stands: the entries of the temporary directory it has read and not yet removed,
or at its own work. -/
inductive CommandPc where
  | sweeping (listed : List Bytes)
  | working
  deriving DecidableEq

inductive CommandEvent where
  /-- The directory yields an entry. -/
  | reads (entry : Bytes)
  | removes (entry : Bytes) (works : Bool)
  | swept
  /-- The account list is rewritten. -/
  | saves (content : Bytes) (now : ℤ)

def tmpEntry (entry : Bytes) : Path := [kTmpDir, entry]

def commandStep (d : Disk) : CommandPc → CommandEvent → List DiskStep × CommandPc
  | .sweeping listed, .reads entry =>
      ([], .sweeping (if (d.lookup (tmpEntry entry)).isSome then entry :: listed else listed))
  | .sweeping listed, .removes entry works =>
      (if entry ∈ listed ∧ works = true then [.remove (tmpEntry entry)] else [],
        .sweeping (listed.erase entry))
  | .sweeping listed, .swept => ([], if listed = [] then .working else .sweeping listed)
  | .working, .saves content now =>
      ([.write kNewUsersFile ⟨content, now⟩, .rename kNewUsersFile kUsersFile], .working)
  | pc, _ => ([], pc)

structure State where
  traffic : Traffic.State
  commands : ℕ → CommandPc

inductive Event where
  | server (ev : Traffic.Event)
  | command (c : ℕ) (ev : CommandEvent)

def start (d : Disk) : State := ⟨Traffic.start d, fun _ => .sweeping []⟩

def step (U : Traffic.Uploads) (s : State) : Event → State
  | .server ev => { s with traffic := Traffic.step U s.traffic ev }
  | .command c ev =>
      let x := commandStep s.traffic.disk (s.commands c) ev
      { traffic := { s.traffic with disk := s.traffic.disk.run x.1 }
        commands := Function.update s.commands c x.2 }

/-- The temporary file has been created and not yet renamed. -/
def UnderWay : PutPc → Prop
  | .receiving .. | .storing _ => True
  | _ => False

instance : ∀ pc, Decidable (UnderWay pc)
  | .receiving .. | .storing _ => inferInstanceAs (Decidable True)
  | .opening | .finished _ => inferInstanceAs (Decidable False)

/-- No command removes the temporary file of the upload while that is under way. -/
def Spares (U : Traffic.Uploads) (i : ℕ) (s : State) : Event → Prop
  | .command c ev =>
      .remove (tempPath (U.request i).random) ∈ (commandStep s.traffic.disk (s.commands c) ev).1 →
        ¬ UnderWay (s.traffic.puts i)
  | .server _ => True

instance (U : Traffic.Uploads) (i : ℕ) (s : State) : ∀ ev, Decidable (Spares U i s ev)
  | .command c ev => inferInstanceAs (Decidable (.remove (tempPath (U.request i).random) ∈
      (commandStep s.traffic.disk (s.commands c) ev).1 → ¬ UnderWay (s.traffic.puts i)))
  | .server _ => inferInstanceAs (Decidable True)

def EndsStored (U : Traffic.Uploads) (i : ℕ) (final : Path) (d₀ : Disk) (es : List Event) : Prop :=
  (Machine.run (step U) (start d₀) es).traffic.puts i = .finished (some true) ∧
    ∃ k, (Machine.run (step U) (start d₀) (es.take k)).traffic.disk.content final =
      some (U.request i).body

section Command

variable {d : Disk} {pc : CommandPc} {ev : CommandEvent} {p : Path}

theorem commandStep_cases (d : Disk) (pc : CommandPc) (ev : CommandEvent) :
    (commandStep d pc ev).1 = [] ∨
    (∃ entry, (commandStep d pc ev).1 = [.remove (tmpEntry entry)]) ∨
    ∃ node, (commandStep d pc ev).1 =
      [.write kNewUsersFile node, .rename kNewUsersFile kUsersFile] := by
  cases pc with
  | sweeping listed =>
    cases ev with
    | removes entry works =>
      simp only [commandStep]
      split_ifs
      · exact .inr (.inl ⟨entry, rfl⟩)
      · exact .inl rfl
    | reads | swept | saves => exact .inl rfl
  | working =>
    cases ev with
    | saves content now => exact .inr (.inr ⟨_, rfl⟩)
    | reads | removes | swept => exact .inl rfl

theorem content_run_save {node : FileNode} (hnew : p ≠ kNewUsersFile) (husers : p ≠ kUsersFile) :
    (d.run [.write kNewUsersFile node, .rename kNewUsersFile kUsersFile]).content p =
      d.content p := by
  simp only [Disk.run, List.foldl_cons, List.foldl_nil]
  rw [content_rename_ne hnew husers, content_write_ne hnew]

theorem commandStep_stored (hp : IsStored p) :
    (d.run (commandStep d pc ev).1).content p = d.content p := by
  have hne : (∀ entry, p ≠ tmpEntry entry) ∧ p ≠ kNewUsersFile ∧ p ≠ kUsersFile := by
    have hdir : kChunksDir ≠ kTmpDir := by decide
    rcases hp with ⟨user, name, hp⟩ | ⟨id, hp⟩
    · obtain ⟨-, -, rfl⟩ := filePath_eq_some.mp hp
      simp [tmpEntry, kNewUsersFile, kUsersFile]
    · obtain ⟨-, rfl⟩ := chunkPath_eq_some.mp hp
      simp [tmpEntry, kNewUsersFile, kUsersFile, hdir]
  rcases commandStep_cases d pc ev with h | ⟨entry, h⟩ | ⟨node, h⟩
  · rw [h]
    rfl
  · rw [h]
    exact content_remove_ne (hne.1 entry)
  · rw [h, content_run_save hne.2.1 hne.2.2]

theorem commandStep_temp (d : Disk) (pc : CommandPc) (ev : CommandEvent) (random : Bytes) :
    (.remove (tempPath random) ∈ (commandStep d pc ev).1 ∧
      (d.run (commandStep d pc ev).1).content (tempPath random) = none) ∨
    (.remove (tempPath random) ∉ (commandStep d pc ev).1 ∧
      (d.run (commandStep d pc ev).1).content (tempPath random) =
        d.content (tempPath random)) := by
  rcases commandStep_cases d pc ev with h | ⟨entry, h⟩ | ⟨node, h⟩
  · rw [h]
    exact .inr ⟨by simp, rfl⟩
  · rw [h]
    by_cases hentry : tempPath random = tmpEntry entry
    · rw [hentry]
      exact .inl ⟨by simp, content_remove _ _⟩
    · exact .inr ⟨by simpa using hentry, content_remove_ne hentry⟩
  · rw [h]
    refine .inr ⟨by simp, content_run_save ?_ ?_⟩
    · simp [tempPath, kNewUsersFile]
    · simp [tempPath, kUsersFile]

end Command

variable {U : Traffic.Uploads} {d₀ : Disk} {s : State} {i : ℕ}

theorem inv_step (h : Traffic.Inv U d₀ s.traffic) (ev : Event) :
    Traffic.Inv U d₀ (step U s ev).traffic := by
  cases ev with
  | server ev => exact Traffic.inv_step h ev
  | command c ev =>
    refine ⟨fun j => (h.sound j).mono ?_, fun p hp => ?_, h.real, h.recorded⟩
    · rcases commandStep_temp s.traffic.disk (s.commands c) ev (U.request j).random with
        ⟨-, htemp⟩ | ⟨-, htemp⟩
      · exact .inr htemp
      · exact .inl htemp
    · exact (commandStep_stored hp).trans (h.content p hp)

section Upload

variable {r : PutRequest} {d d' : Disk} {e : PutEnv} {pc : PutPc}

/-- An upload to which nothing bad has happened. -/
def Unharmed (r : PutRequest) (d : Disk) : PutPc → Prop
  | .opening => True
  | .receiving _ _ out => out.good = true ∧ (d.content (tempPath r.random)).isSome
  | .storing _ => (d.content (tempPath r.random)).isSome
  | .finished told => told = some true

/-- An upload that cannot succeed any more: its temporary file is gone, or it has failed. -/
def Doomed (r : PutRequest) (d : Disk) : PutPc → Prop
  | .opening => False
  | .receiving .. | .storing _ => d.content (tempPath r.random) = none
  | .finished told => told ≠ some true

def remaining (r : PutRequest) : PutPc → ℕ
  | .opening => r.size + 3
  | .receiving _ got _ => r.size - got + 2
  | .storing _ => 1
  | .finished _ => 0

theorem putStep_remaining : remaining r (putStep r d e pc).2 ≤ remaining r pc - 1 := by
  cases pc with
  | opening =>
    simp only [putStep]
    split
    · simp [remaining]
    · split_ifs <;> simp [remaining]
  | receiving final got out =>
    simp only [putStep]
    split_ifs <;> simp only [remaining] <;> omega
  | storing final =>
    simp only [putStep]
    split_ifs <;> simp [remaining]
  | finished told => simp [putStep, remaining]

theorem putStep_unharmed {final : Path} (hfinal : r.kind.final = some final)
    (hbody : r.size ≤ r.incoming.length) (he : e.Sound) (hsound : pc.Sound r d)
    (h : Unharmed r d pc) : Unharmed r (d.run (putStep r d e pc).1) (putStep r d e pc).2 := by
  have hthere (node : FileNode) (ht : (d.content (tempPath r.random)).isSome) :
      ((d.run (throughHandle d (tempPath r.random) node)).content (tempPath r.random)).isSome := by
    rw [content_run_throughHandle]
    simpa using ht
  cases pc with
  | opening =>
    simp only [putStep, hfinal, he.opens, ↓reduceIte]
    exact ⟨rfl, by simp [Disk.run]⟩
  | receiving final got out =>
    obtain ⟨-, hsize, -⟩ := hsound
    obtain ⟨hgood, ht⟩ := h
    simp only [putStep, OutStream.flush_good hgood he.file, OutStream.write_good _ hgood he.file,
      Bool.true_or, ↓reduceIte]
    split_ifs with hdone hshort
    · exact hthere _ ht
    · omega
    · exact ⟨OutStream.write_good _ hgood he.file, hthere _ ht⟩
  | storing final =>
    have hlookup : (d.lookup (tempPath r.random)).isSome := by
      simpa [Unharmed, Disk.content] using h
    simp [putStep, he.renames, hlookup, Unharmed]
  | finished told => exact h

theorem putStep_doomed (h : Doomed r d pc) :
    Doomed r (d.run (putStep r d e pc).1) (putStep r d e pc).2 := by
  have hgone {node : FileNode} (ht : d.content (tempPath r.random) = none) :
      (d.run (throughHandle d (tempPath r.random) node)).content (tempPath r.random) = none := by
    rw [content_run_throughHandle, ht, Option.map_none]
  cases pc with
  | opening => exact h.elim
  | receiving final got out =>
    simp only [putStep]
    split_ifs
    · exact hgone h
    · simp [Doomed]
    · simp [Doomed]
    · simp [Doomed]
    · exact hgone h
    · simp [Doomed]
  | storing final =>
    have hlookup : d.lookup (tempPath r.random) = none := by
      simpa [Doomed, Disk.content] using h
    simp [putStep, hlookup, Doomed]
  | finished told => exact h

theorem Unharmed.congr (h : Unharmed r d pc)
    (hd : d'.content (tempPath r.random) = d.content (tempPath r.random)) :
    Unharmed r d' pc := by
  cases pc with
  | opening | finished => exact h
  | receiving final got out => exact ⟨h.1, hd ▸ h.2⟩
  | storing final => exact (congrArg Option.isSome hd).trans h

theorem Doomed.congr (h : Doomed r d pc)
    (hd : d'.content (tempPath r.random) = d.content (tempPath r.random) ∨
      d'.content (tempPath r.random) = none) : Doomed r d' pc := by
  cases pc with
  | opening | finished => exact h
  | receiving | storing =>
    rcases hd with hd | hd
    · exact hd.trans h
    · exact hd

/-- A removal of the temporary file is the end of an upload that is under way, and of no other. -/
theorem doomed_of_underWay (hpc : UnderWay pc) (hd : d.content (tempPath r.random) = none) :
    Doomed r d pc := by
  cases pc with
  | opening | finished => exact hpc.elim
  | receiving | storing => exact hd

theorem unharmed_of_not_underWay (h : Unharmed r d pc) (hpc : ¬ UnderWay pc) :
    Unharmed r d' pc := by
  cases pc with
  | opening | finished => exact h
  | receiving | storing => exact absurd trivial hpc

end Upload

def isStepOf (i : ℕ) : Event → Bool
  | .server (.put j _) => j == i
  | _ => false

theorem remaining_run (es : List Event) (s : State) :
    remaining (U.request i) ((Machine.run (step U) s es).traffic.puts i) ≤
      remaining (U.request i) (s.traffic.puts i) - es.countP (isStepOf i) := by
  induction es generalizing s with
  | nil => simp
  | cons ev es ih =>
    have hev : remaining (U.request i) ((step U s ev).traffic.puts i) ≤
        remaining (U.request i) (s.traffic.puts i) - if isStepOf i ev then 1 else 0 := by
      cases ev with
      | command c ev => simp [step, isStepOf]
      | server ev =>
        by_cases hput : ∃ e, ev = .put i e
        · obtain ⟨e, rfl⟩ := hput
          simpa [step, Traffic.step, isStepOf] using putStep_remaining
        · have hsame : (step U s (.server ev)).traffic.puts i = s.traffic.puts i :=
            Traffic.step_puts_ne fun e he => hput ⟨e, he⟩
          rw [hsame]
          have hnot : isStepOf i (.server ev) = false := by
            cases ev with
            | put j e =>
              have hj : j ≠ i := by
                rintro rfl
                exact hput ⟨e, rfl⟩
              simpa [isStepOf] using hj
            | delFile | delChunk => rfl
          simp [hnot]
    have hrest := ih (step U s ev)
    rw [List.countP_cons, Machine.run_cons]
    omega

theorem inv_run (U : Traffic.Uploads) (d₀ : Disk) (es : List Event) :
    Traffic.Inv U d₀ (Machine.run (step U) (start d₀) es).traffic :=
  Machine.inv_run_all (I := fun s : State => Traffic.Inv U d₀ s.traffic)
    (fun _ ev hs => inv_step hs ev) (Traffic.inv_start U d₀) es

/-- Every rename on record put the body in its place, at that moment. -/
theorem content_of_stored {p : Path} {es : List Event}
    (h : .stored i p ∈ (Machine.run (step U) (start d₀) es).traffic.log) :
    ∃ k, (Machine.run (step U) (start d₀) (es.take k)).traffic.disk.content p =
      some (U.request i).body := by
  induction es using List.reverseRecOn with
  | nil => simp [start, Traffic.start] at h
  | append_singleton es ev ih =>
    have hearlier (h : .stored i p ∈ (Machine.run (step U) (start d₀) es).traffic.log) :
        ∃ k, (Machine.run (step U) (start d₀) ((es ++ [ev]).take k)).traffic.disk.content p =
          some (U.request i).body := by
      obtain ⟨k, hcontent⟩ := ih h
      refine ⟨min k es.length, ?_⟩
      rwa [List.take_append_of_le_length (Nat.min_le_right _ _), ← List.take_eq_take_min]
    have hinv := inv_run U d₀ (es ++ [ev])
    rw [Machine.run_append, Machine.run_cons, Machine.run_nil] at h
    cases ev with
    | command c ev => exact hearlier h
    | server ev =>
      rcases Traffic.step_log U (Machine.run (step U) (start d₀) es).traffic ev with hlog | ⟨c, hlog⟩
      · rw [show (step U _ (.server ev)).traffic.log = _ from hlog] at h
        exact hearlier h
      · have hlog' : (Machine.run (step U) (start d₀) (es ++ [.server ev])).traffic.log =
            c :: (Machine.run (step U) (start d₀) es).traffic.log := by
          rw [Machine.run_append]
          exact hlog
        rw [show (step U _ (.server ev)).traffic.log = _ from hlog] at h
        rcases List.mem_cons.mp h with hc | h
        · refine ⟨(es ++ [Event.server ev]).length, ?_⟩
          have hreal := hinv.real c (by rw [hlog']; exact List.mem_cons_self ..)
          rw [← hc] at hreal
          rw [List.take_length, hinv.content p (PutKind.isStored hreal.2.1), hlog', ← hc,
            Traffic.contentAfter, if_pos rfl]
        · exact hearlier h

theorem step_unharmed {final : Path} (hfinal : (U.request i).kind.final = some final)
    (hbody : (U.request i).size ≤ (U.request i).incoming.length) (hs : Traffic.Inv U d₀ s.traffic)
    (h : Unharmed (U.request i) s.traffic.disk (s.traffic.puts i)) {ev : Event}
    (hspares : Spares U i s ev) (hown : ∀ e, ev = .server (.put i e) → e.Sound) :
    Unharmed (U.request i) (step U s ev).traffic.disk ((step U s ev).traffic.puts i) := by
  cases ev with
  | command c ev =>
    rcases commandStep_temp s.traffic.disk (s.commands c) ev (U.request i).random with
      ⟨hremoves, -⟩ | ⟨-, htemp⟩
    · exact unharmed_of_not_underWay h (hspares hremoves)
    · exact h.congr htemp
  | server ev =>
    by_cases hput : ∃ e, ev = .put i e
    · obtain ⟨e, rfl⟩ := hput
      simpa [step, Traffic.step] using
        putStep_unharmed hfinal hbody (hown e rfl) (hs.sound i) h
    · have hev : ∀ e, ev ≠ .put i e := fun e he => hput ⟨e, he⟩
      show Unharmed _ _ ((Traffic.step U s.traffic ev).puts i)
      rw [Traffic.step_puts_ne hev]
      exact h.congr (Traffic.step_temp_ne hs hev)

theorem step_doomed (hs : Traffic.Inv U d₀ s.traffic)
    (h : Doomed (U.request i) s.traffic.disk (s.traffic.puts i)) (ev : Event) :
    Doomed (U.request i) (step U s ev).traffic.disk ((step U s ev).traffic.puts i) := by
  cases ev with
  | command c ev =>
    refine h.congr ?_
    rcases commandStep_temp s.traffic.disk (s.commands c) ev (U.request i).random with
      ⟨-, htemp⟩ | ⟨-, htemp⟩
    · exact .inr htemp
    · exact .inl htemp
  | server ev =>
    by_cases hput : ∃ e, ev = .put i e
    · obtain ⟨e, rfl⟩ := hput
      simpa [step, Traffic.step] using putStep_doomed (e := e) h
    · have hev : ∀ e, ev ≠ .put i e := fun e he => hput ⟨e, he⟩
      show Doomed _ _ ((Traffic.step U s.traffic ev).puts i)
      rw [Traffic.step_puts_ne hev]
      exact h.congr (.inl (Traffic.step_temp_ne hs hev))

theorem doomed_of_breach {ev : Event} (h : ¬ Spares U i s ev) :
    Doomed (U.request i) (step U s ev).traffic.disk ((step U s ev).traffic.puts i) := by
  cases ev with
  | server ev => exact absurd trivial h
  | command c ev =>
    simp only [Spares, Classical.not_imp, not_not] at h
    obtain ⟨hremoves, hpc⟩ := h
    rcases commandStep_temp s.traffic.disk (s.commands c) ev (U.request i).random with
      ⟨-, htemp⟩ | ⟨hnot, -⟩
    · exact doomed_of_underWay hpc htemp
    · exact absurd hremoves hnot

/-- An upload whose body arrives whole and whose storage does not fail ends stored exactly if no
command removes its temporary file between the creation and the rename. -/
theorem endsStored_iff (U : Traffic.Uploads) (d₀ : Disk) (es : List Event) (i : ℕ) {final : Path}
    (hfinal : (U.request i).kind.final = some final)
    (hbody : (U.request i).size ≤ (U.request i).incoming.length)
    (hsound : ∀ e, .server (.put i e) ∈ es → e.Sound)
    (hsteps : (U.request i).size + 3 ≤ es.countP (isStepOf i)) :
    EndsStored U i final d₀ es ↔ Machine.Along (step U) (Spares U i) (start d₀) es := by
  constructor
  · rintro ⟨htold, -⟩
    refine Machine.along_of_absorbing (I := fun s => Traffic.Inv U d₀ s.traffic)
      (B := fun s => Doomed (U.request i) s.traffic.disk (s.traffic.puts i))
      (fun s ev hs => inv_step hs ev) (fun s ev _ hbreach => doomed_of_breach hbreach)
      (fun s ev hs hdoomed => step_doomed hs hdoomed ev) (Traffic.inv_start U d₀) ?_
    rw [htold]
    simp [Doomed]
  · intro hspares
    have hown : Machine.Along (step U)
        (fun _ ev => ∀ e, ev = .server (.put i e) → e.Sound) (start d₀) es :=
      Machine.along_of_forall fun ev hev _ e he => hsound e (he ▸ hev)
    have hstart : Traffic.Inv U d₀ (start d₀).traffic ∧
        Unharmed (U.request i) (start d₀).traffic.disk ((start d₀).traffic.puts i) :=
      ⟨Traffic.inv_start U d₀, trivial⟩
    have hinv := Machine.inv_run
      (I := fun s : State => Traffic.Inv U d₀ s.traffic ∧
        Unharmed (U.request i) s.traffic.disk (s.traffic.puts i))
      (fun s ev hs hC => ⟨inv_step hs.1 ev, step_unharmed hfinal hbody hs.1 hs.2 hC.1 hC.2⟩)
      hstart (Machine.along_and hspares hown)
    have hover := remaining_run (U := U) (i := i) es (start d₀)
    have htold : (Machine.run (step U) (start d₀) es).traffic.puts i = .finished (some true) := by
      have hbegin : remaining (U.request i) ((start d₀).traffic.puts i) =
          (U.request i).size + 3 := rfl
      have hunharmed := hinv.2
      cases hpc : (Machine.run (step U) (start d₀) es).traffic.puts i with
      | finished told =>
        rw [hpc] at hunharmed
        rw [show told = some true from hunharmed]
      | opening | receiving | storing =>
        rw [hpc] at hover
        simp only [remaining] at hover hbegin
        omega
    obtain ⟨p, hp⟩ := hinv.1.recorded i htold
    obtain rfl : final = p := Option.some.inj (hfinal.symm.trans (hinv.1.real _ hp).2.1)
    exact ⟨htold, content_of_stored hp⟩

def uploading (n : ℕ) : List Event :=
  List.replicate n (.server (.put 0 ⟨0, true, .accept 0, true, .done⟩))

def samplePath : Path := [kUsersDir, ascii "ann", kFilesDir, ascii "a"]

/-- `useradd` has read the directory when the upload creates its file, and removes what an earlier
upload has left; it rewrites the account list while the body arrives. -/
theorem endsStored_beside_command :
    let entry := ascii "old.part"
    EndsStored Traffic.sampleUploads 0 samplePath ((∅ : Disk).insert (tmpEntry entry) ⟨[1], 0⟩)
      ([.command 0 (.reads entry)] ++ uploading 2 ++
        [.command 0 (.removes entry true), .command 0 .swept] ++ uploading 1 ++
        [.command 0 (.saves [] 0)] ++ uploading 2) := by
  intro entry
  refine (endsStored_iff _ _ _ _ (by decide +kernel) (by decide) ?_ (by decide)).mpr
    (by decide +kernel)
  intro e he
  have hsame : e = ⟨0, true, .accept 0, true, .done⟩ := by simpa [uploading] using he
  rw [hsame]
  exact ⟨rfl, rfl, rfl⟩

/-- The upload has created its temporary file when the command starts, which removes it. The body
arrives and nothing fails, but there is nothing to rename. -/
theorem upload_swept_away :
    let entry := ascii ".part"
    let es := uploading 1 ++ [.command 0 (.reads entry), .command 0 (.removes entry true)] ++
      uploading 4
    (∀ e, .server (.put 0 e) ∈ es → e.Sound) ∧
    (Machine.run (step Traffic.sampleUploads) (start ∅) es).traffic.puts 0 =
      .finished (some false) ∧
    ¬ EndsStored Traffic.sampleUploads 0 samplePath ∅ es := by
  intro entry es
  have hfails : (Machine.run (step Traffic.sampleUploads) (start ∅) es).traffic.puts 0 =
      .finished (some false) := by decide +kernel
  refine ⟨fun e he => ?_, hfails, ?_⟩
  · have hsame : e = ⟨0, true, .accept 0, true, .done⟩ := by simpa [es, uploading] using he
    rw [hsame]
    exact ⟨rfl, rfl, rfl⟩
  · rintro ⟨htold, -⟩
    rw [hfails] at htold
    exact absurd htold (by decide)

end Commands

end PersonalCloud
