import PersonalCloud.Client.Sync
import PersonalCloud.Server.WebUi

/-! Uploads that are skipped because the server already holds the content: the command line asks
with `STAT` during the upload, the page looks at the list it has fetched before. -/
namespace PersonalCloud

open Proto Channel Remote Store Http

namespace Skips

/-- A file given to an upload, with its dedup tag; the page leaves the tag of a large file empty. -/
structure ChosenFile where
  name : Bytes
  tag : Bytes
  tag_hex : tag = [] ∨ isSafeChunkId tag = true

/-- A request of another client, on either protocol. -/
inductive OtherRequest where
  | own (env : SessionEnv) (s : SessionState) (line input : Bytes)
  | web (env : WebEnv) (entries : BrowserSessions) (request : HttpRequest) (input : Bytes)

def OtherRequest.steps (d : Disk) : OtherRequest → List DiskStep
  | own env s line input => (Session.handle { env with disk := d } s line input).steps
  | web env entries request input =>
      (WebUi.handle { env with disk := d } entries request input).2.steps

/-- Where an upload call stands. The page goes through its files, the command line has one. -/
inductive CallPc where
  | choosing (todo : List ChosenFile)
  | uploading (f : ChosenFile) (todo : List ChosenFile)
  | asking (u : SealedUpload)
  | comparing (u : SealedUpload) (reply : Option Bytes)
  | putting (u : SealedUpload)
  | finished

/-- A call, the states of the store since it began, and the files it has reported as already
stored. -/
structure Call where
  pc : CallPc
  seen : List Disk
  skipped : List ChosenFile

/-- The server's store, the page's list of files, the listings on their way to the page, and the
upload calls by number. -/
structure State where
  disk : Disk
  files : List StoredFile
  answers : List (List StoredFile)
  calls : ℕ → Option Call

/-- What happens while a request of an upload call is made. `sealed` is the body the page sends. -/
structure CallEnv where
  env : SessionEnv
  link : Link
  works : Bool := true
  sealed : Bytes := []

inductive Event where
  | request (r : OtherRequest)
  /-- The server answers the page's request for the list. -/
  | lists
  /-- The page takes an answer. -/
  | refreshes (k : ℕ)
  | signedOut
  | beginPage (i : ℕ) (chosen : List ChosenFile)
  | beginCli (i : ℕ) (u : SealedUpload)
  | next (i : ℕ) (e : CallEnv)

/-- The page finds the tag of the file in its list. -/
def alreadyListed (files : List StoredFile) (f : ChosenFile) : Bool :=
  !f.tag.isEmpty && (files.find? fun x => x.name = f.name).any fun x => x.tag = f.tag

/-- One step of a call: what it does to the store, where it stands then, and the file it reports as
already stored. -/
def callStep (a : Account) (d : Disk) (files : List StoredFile) (e : CallEnv) :
    CallPc → List DiskStep × CallPc × List ChosenFile
  | .choosing [] => ([], .finished, [])
  | .choosing (f :: todo) =>
      if e.works = false then ([], .choosing todo, [])
      else if alreadyListed files f then ([], .choosing todo, [f])
      else ([], .uploading f todo, [])
  | .uploading f todo =>
      let query := if f.tag.isEmpty then [] else ascii "tag=" ++ f.tag
      (if e.works then (WebUi.servePutFile { e.env with disk := d } a.user f.name query
        e.sealed.length e.sealed).steps else [], .choosing todo, [])
  | .asking u =>
      let r := exchange { e.env with disk := d } ⟨a.user, true, false⟩ e.link (statLine u.name) []
      (r.1, .comparing u r.2, [])
  | .comparing u reply =>
      if alreadyThere u.tag (statReply reply) then ([], .finished, [⟨u.name, u.tag, u.tag_hex⟩])
      else ([], .putting u, [])
  | .putting u =>
      ((exchange { e.env with disk := d } ⟨a.user, true, false⟩ e.link
        (putFileLine u.name u.tag u.stream.length) u.stream).1, .finished, [])
  | .finished => ([], .finished, [])

/-- A call that is not over sees the store as it is now. -/
def Call.observe (d : Disk) (c : Call) : Call :=
  match c.pc with
  | .finished => c
  | _ => { c with seen := d :: c.seen }

def begin (s : State) (i : ℕ) (pc : CallPc) : State :=
  if (s.calls i).isSome then s
  else { s with calls := Function.update s.calls i (some ⟨pc, [s.disk], []⟩) }

def step (a : Account) (s : State) : Event → State
  | .request r =>
      let disk := s.disk.run (r.steps s.disk)
      { s with disk, calls := fun i => (s.calls i).map (Call.observe disk) }
  | .lists => { s with answers := listFiles s.disk a.user :: s.answers }
  | .refreshes k =>
      match s.answers[k]? with
      | none => s
      | some files => { s with files, answers := s.answers.eraseIdx k }
  | .signedOut => { s with files := [] }
  | .beginPage i chosen => begin s i (.choosing chosen)
  | .beginCli i u => begin s i (.asking u)
  | .next i e =>
      match s.calls i with
      | none => s
      | some ⟨.finished, _, _⟩ => s
      | some c =>
          let r := callStep a s.disk s.files e c.pc
          let disk := s.disk.run r.1
          { s with
            disk
            calls := fun j =>
              if j = i then some ⟨r.2.1, disk :: c.seen, r.2.2 ++ c.skipped⟩
              else (s.calls j).map (Call.observe disk) }

def start (d : Disk) : State := ⟨d, [], [], fun _ => none⟩

/-- When an upload call of the page begins, what the page's list, or a listing on its way, says of
the chosen files with their own tags is still so; and the command line is given no name that begins
with a space. -/
def UpToDate (a : Account) (s : State) : Event → Prop
  | .beginPage _ chosen => ∀ f ∈ chosen, ∀ files ∈ s.files :: s.answers,
      alreadyListed files f = true → ShowsTag s.disk a.user f.name f.tag
  | .beginCli _ u => u.name.head? ≠ some 32
  | _ => True

variable {a : Account} {d : Disk} {s : State}

theorem showsTag_of_listed {f : ChosenFile} (h : alreadyListed (listFiles d a.user) f = true) :
    ShowsTag d a.user f.name f.tag := by
  simp only [alreadyListed, Bool.and_eq_true, Bool.not_eq_true', List.isEmpty_eq_false_iff,
    Option.any_eq_true, decide_eq_true_eq] at h
  obtain ⟨hne, x, hfind, htag⟩ := h
  have hname : x.name = f.name := by simpa using List.find?_some hfind
  have hinfo := fileInfo_of_listed (List.mem_of_find?_eq_some hfind)
  rw [hname, htag] at hinfo
  have hhex : isSafeChunkId f.tag = true := f.tag_hex.resolve_left hne
  have hplain : f.tag.filter (· ≠ 13) = f.tag :=
    List.filter_eq_self.mpr fun c hc => by simpa using (isPlain_of_isSafeChunkId hhex c hc).2
  refine ⟨x.size, f.tag, hinfo, ?_⟩
  rw [hplain, split_word (isWord_of_isSafeChunkId hhex)]

/-- What is known of a call that is not over. -/
def CallPc.Sound (a : Account) (lists : List (List StoredFile)) (seen : List Disk) : CallPc → Prop
  | choosing todo | uploading _ todo => ∀ f ∈ todo, ∀ files ∈ lists,
      alreadyListed files f = true → ∃ d ∈ seen, ShowsTag d a.user f.name f.tag
  | asking u => u.name.head? ≠ some 32
  | comparing u reply => alreadyThere u.tag (statReply reply) = true →
      ∃ d ∈ seen, ShowsTag d a.user u.name u.tag
  | putting _ | finished => True

structure Call.Sound (a : Account) (s : State) (c : Call) : Prop where
  now : c.pc ≠ .finished → s.disk ∈ c.seen
  pc : c.pc.Sound a (s.files :: s.answers) c.seen
  skipped : ∀ f ∈ c.skipped, ∃ d ∈ c.seen, ShowsTag d a.user f.name f.tag

theorem CallPc.Sound.mono {pc : CallPc} {lists lists' : List (List StoredFile)}
    {seen seen' : List Disk} (h : pc.Sound a lists seen)
    (hlists : ∀ files ∈ lists', files ∈ lists ∨ files = []) (hseen : seen ⊆ seen') :
    pc.Sound a lists' seen' := by
  cases pc with
  | choosing todo | uploading _ todo =>
    intro f hf files hfiles hlisted
    rcases hlists files hfiles with hfiles | rfl
    · obtain ⟨d, hd, hshows⟩ := h f hf files hfiles hlisted
      exact ⟨d, hseen hd, hshows⟩
    · simp [alreadyListed] at hlisted
  | comparing u reply =>
    intro hthere
    obtain ⟨d, hd, hshows⟩ := h hthere
    exact ⟨d, hseen hd, hshows⟩
  | asking u => exact h
  | putting | finished => trivial

theorem Call.Sound.observe {c : Call} (h : c.Sound a s) (s' : State)
    (hlists : s'.files :: s'.answers = s.files :: s.answers) :
    (c.observe s'.disk).Sound a s' := by
  obtain ⟨pc, seen, skipped⟩ := c
  have hseen : seen ⊆ s'.disk :: seen := List.subset_cons_self _ _
  have hskipped : ∀ f ∈ skipped, ∃ d ∈ s'.disk :: seen, ShowsTag d a.user f.name f.tag := by
    intro f hf
    obtain ⟨d, hd, hshows⟩ := h.skipped f hf
    exact ⟨d, hseen hd, hshows⟩
  cases pc with
  | finished => exact ⟨fun hne => absurd rfl hne, trivial, h.skipped⟩
  | choosing | uploading | asking | comparing | putting =>
    refine ⟨fun _ => List.mem_cons_self .., ?_, hskipped⟩
    rw [hlists]
    exact h.pc.mono (fun _ => .inl) hseen

/-- The files a step reports were shown, and what is known of the call is kept. -/
theorem callStep_sound {c : Call} (e : CallEnv) (h : c.Sound a s) (hpc : c.pc ≠ .finished) :
    (callStep a s.disk s.files e c.pc).2.1.Sound a (s.files :: s.answers) c.seen ∧
    ∀ f ∈ (callStep a s.disk s.files e c.pc).2.2, ∃ d ∈ c.seen, ShowsTag d a.user f.name f.tag := by
  obtain ⟨pc, seen, skipped⟩ := c
  have hsound := h.pc
  cases pc with
  | choosing todo =>
    cases todo with
    | nil => exact ⟨trivial, by simp [callStep]⟩
    | cons f todo =>
      have hrest : (CallPc.choosing todo).Sound a (s.files :: s.answers) seen :=
        fun g hg => hsound g (List.mem_cons_of_mem _ hg)
      simp only [callStep]
      split_ifs with hworks hlisted
      · exact ⟨hrest, by simp⟩
      · refine ⟨hrest, fun g hg => ?_⟩
        rw [List.mem_singleton.mp hg]
        exact hsound f (by simp) s.files (by simp) hlisted
      · exact ⟨hrest, by simp⟩
  | uploading f todo => exact ⟨hsound, by simp [callStep]⟩
  | asking u =>
    refine ⟨fun hthere => ?_, by simp [callStep]⟩
    obtain ⟨htag, size, hreply⟩ := alreadyThere_eq_true hthere
    have hplain := isPlain_of_isSafeName u.name_safe
    have hshows := showsTag_of_stat hplain hreply htag
    rw [wireName_of_head hsound] at hshows
    exact ⟨s.disk, h.now hpc, hshows⟩
  | comparing u reply =>
    simp only [callStep]
    split_ifs with hthere
    · refine ⟨trivial, fun g hg => ?_⟩
      rw [List.mem_singleton.mp hg]
      exact hsound hthere
    · exact ⟨trivial, by simp⟩
  | putting u => exact ⟨trivial, by simp [callStep]⟩
  | finished => exact absurd rfl hpc

def Inv (a : Account) (s : State) : Prop := ∀ i c, s.calls i = some c → c.Sound a s

theorem inv_begin {i : ℕ} {pc : CallPc} (h : Inv a s)
    (hpc : pc.Sound a (s.files :: s.answers) [s.disk]) : Inv a (begin s i pc) := by
  unfold begin
  split_ifs with hthere
  · exact h
  · intro j c hc
    by_cases hj : j = i
    · subst hj
      obtain rfl : ⟨pc, [s.disk], []⟩ = c := by simpa using hc
      exact ⟨fun _ => List.mem_singleton_self _, hpc, by simp⟩
    · have hc' : s.calls j = some c := by simpa [hj] using hc
      exact ⟨(h j c hc').now, (h j c hc').pc, (h j c hc').skipped⟩

theorem inv_lists (h : Inv a s) : Inv a (step a s .lists) := by
  intro i c hc
  have hold := h i c hc
  refine ⟨hold.now, ?_, hold.skipped⟩
  obtain ⟨pc, seen, skipped⟩ := c
  have hsound := hold.pc
  have hlisted {f : ChosenFile} {files : List StoredFile} (hpc : pc ≠ .finished)
      (hfiles : files ∈ s.files :: listFiles s.disk a.user :: s.answers)
      (hold' : files ∈ s.files :: s.answers → alreadyListed files f = true →
        ∃ d ∈ seen, ShowsTag d a.user f.name f.tag) (hl : alreadyListed files f = true) :
      ∃ d ∈ seen, ShowsTag d a.user f.name f.tag := by
    rcases List.mem_cons.mp hfiles with rfl | hfiles
    · exact hold' (List.mem_cons_self ..) hl
    · rcases List.mem_cons.mp hfiles with rfl | hfiles
      · exact ⟨s.disk, hold.now hpc, showsTag_of_listed hl⟩
      · exact hold' (List.mem_cons_of_mem _ hfiles) hl
  cases pc with
  | choosing todo | uploading _ todo =>
    exact fun f hf files hfiles hl =>
      hlisted (by simp) hfiles (fun hin => hsound f hf files hin) hl
  | asking | comparing | putting | finished => exact hsound

theorem inv_next (h : Inv a s) (i : ℕ) (e : CallEnv) : Inv a (step a s (.next i e)) := by
  simp only [step]
  split
  · exact h
  · exact h
  · next c hnot hcall =>
    have hpc : c.pc ≠ .finished := by
      rintro hpc
      obtain ⟨pc, seen, skipped⟩ := c
      subst hpc
      exact hnot seen skipped rfl
    obtain ⟨hsound, hskips⟩ := callStep_sound e (h i c hcall) hpc
    have hseen : c.seen ⊆ s.disk.run (callStep a s.disk s.files e c.pc).1 :: c.seen :=
      List.subset_cons_self _ _
    intro j c' hc'
    by_cases hj : j = i
    · subst hj
      obtain rfl := Option.some.inj ((if_pos rfl).symm.trans hc')
      refine ⟨fun _ => List.mem_cons_self .., hsound.mono (fun _ => .inl) hseen, fun f hf => ?_⟩
      obtain ⟨d, hd, hshows⟩ : ∃ d ∈ c.seen, ShowsTag d a.user f.name f.tag := by
        rcases List.mem_append.mp hf with hf | hf
        · exact hskips f hf
        · exact (h j c hcall).skipped f hf
      exact ⟨d, hseen hd, hshows⟩
    · obtain ⟨c'', hc'', rfl⟩ := Option.map_eq_some_iff.mp ((if_neg hj).symm.trans hc')
      exact (h j c'' hc'').observe { s with
        disk := s.disk.run (callStep a s.disk s.files e c.pc).1, calls := _ } rfl

theorem inv_step (h : Inv a s) {ev : Event} (hev : UpToDate a s ev) : Inv a (step a s ev) := by
  cases ev with
  | request r =>
    intro i c hc
    obtain ⟨c', hc', rfl⟩ := Option.map_eq_some_iff.mp hc
    exact (h i c' hc').observe (step a s (.request r)) rfl
  | lists => exact inv_lists h
  | refreshes k =>
    simp only [step]
    split
    · exact h
    · next files hfiles =>
      intro i c hc
      have hold := h i c hc
      refine ⟨hold.now, hold.pc.mono ?_ (List.Subset.refl _), hold.skipped⟩
      intro x hx
      rcases List.mem_cons.mp hx with rfl | hx
      · exact .inl (List.mem_cons_of_mem _ (List.mem_of_getElem? hfiles))
      · exact .inl (List.mem_cons_of_mem _ (List.mem_of_mem_eraseIdx hx))
  | signedOut =>
    intro i c hc
    have hold := h i c hc
    refine ⟨hold.now, hold.pc.mono ?_ (List.Subset.refl _), hold.skipped⟩
    intro x hx
    rcases List.mem_cons.mp hx with rfl | hx
    · exact .inr rfl
    · exact .inl (List.mem_cons_of_mem _ hx)
  | beginPage i chosen =>
    exact inv_begin h fun f hf files hfiles hl =>
      ⟨s.disk, List.mem_singleton_self _, hev f hf files hfiles hl⟩
  | beginCli i u => exact inv_begin h hev
  | next i e => exact inv_next h i e

end Skips

end PersonalCloud
