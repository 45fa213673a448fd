import PersonalCloud.Client.World
import PersonalCloud.Library.Machine

/-! The two ways an upload can go: straight to the server, or as shards to four peers with a record
of where they are. -/
namespace PersonalCloud

open Proto Channel Remote Store

/-- What happens while a stream is sent to the server: the connection, the `STAT` and the
`PUTFILE`. -/
structure DirectEvent where
  connects : Bool
  statEnv : SessionEnv
  statLink : Link
  putEnv : SessionEnv
  putLink : Link

def alreadyThere (tag : Bytes) : Except String (Option (UInt64 × Bytes)) → Bool
  | .ok (some (_, existing)) => !tag.isEmpty && decide (existing = tag)
  | _ => false

/-- Asked about the name, the server answers with the tag. -/
def World.Tells (w : World) (a : Account) (env : SessionEnv) (l : Link) (name tag : Bytes) : Prop :=
  alreadyThere tag (statReply (w.askServer a env l (statLine name) []).2) = true

instance (w : World) (a : Account) (env : SessionEnv) (l : Link)
    (name tag : Bytes) : Decidable (w.Tells a env l name tag) :=
  inferInstanceAs (Decidable (_ = true))

theorem alreadyThere_eq_true {tag : Bytes} {r : Except String (Option (UInt64 × Bytes))}
    (h : alreadyThere tag r = true) : tag ≠ [] ∧ ∃ size, r = .ok (some (size, tag)) := by
  unfold alreadyThere at h
  split at h
  · next size existing =>
    simp only [Bool.and_eq_true, Bool.not_eq_true', List.isEmpty_eq_false_iff,
      decide_eq_true_eq] at h
    exact ⟨h.1, size, by rw [h.2]⟩
  · contradiction

theorem World.Tells.shows {w : World} {a : Account} {env : SessionEnv} {l : Link}
    {name tag : Bytes} (h : w.Tells a env l name tag) (hname : IsPlain name) :
    tag ≠ [] ∧ ShowsTag w.server a.user (wireName name) tag := by
  obtain ⟨htag, size, hreply⟩ := alreadyThere_eq_true h
  exact ⟨htag, showsTag_of_stat hname hreply htag⟩

/-- The exit code of the upload and the world afterwards. -/
def uploadToServer (a : Account) (u : SealedUpload) (e : DirectEvent) (w : World) : World × ℕ :=
  if e.connects = false then (w, 1)
  else
    let stat := w.askServer a e.statEnv e.statLink (statLine u.name) []
    if alreadyThere u.tag (statReply stat.2) then (stat.1, 0)
    else
      let put := stat.1.askServer a e.putEnv e.putLink
        (putFileLine u.name u.tag u.stream.length) u.stream
      match putFileReply put.2 with
      | .error _ => (put.1, 1)
      | .ok () => (put.1, 0)

def Shard.index : Shard → ℕ
  | .d0 => 0
  | .d1 => 1
  | .p0 => 2
  | .p1 => 3

def Shard.ofIndex : ℕ → Option Shard
  | 0 => some .d0
  | 1 => some .d1
  | 2 => some .p0
  | 3 => some .p1
  | _ => none

structure Route where
  server : Address
  peers : Shard → Address

def chunkId (H : Sha256) (u : SealedUpload) (i : Shard) : Bytes := H.hex (u.shard i)

def shardRef (H : Sha256) (u : SealedUpload) (route : Route) (i : Shard) : ShardRef :=
  ⟨i.index, chunkId H u i, (route.peers i).bytes⟩

def manifestOf (H : Sha256) (u : SealedUpload) (route : Route) (placed : List Shard) : Manifest where
  server := route.server.bytes
  name := u.name
  streamSize := UInt64.ofNat u.stream.length
  shardSize := UInt64.ofNat (splitStream u.stream).2
  dedupTag := u.tag
  dataShards := Config.kDataShards
  parityShards := Config.kParityShards
  shards := placed.map (shardRef H u route)

/-- How far a distribution has come: the shards still to be placed and those placed, the moment
before the manifest is opened, the opened manifest, and the exit code. -/
inductive DistPc where
  | placing (todo placed : List Shard)
  | opening (placed : List Shard)
  | writing (placed : List Shard)
  | finished (code : ℕ) (placed : List Shard)
  deriving DecidableEq

def DistPc.placed : DistPc → List Shard
  | placing _ placed | opening placed | writing placed | finished _ placed => placed

structure DistEvent where
  hashes : Bool
  connects : Bool
  env : SessionEnv
  link : Link
  opens : Bool
  /-- How much of the manifest reaches the disk when its write fails. -/
  cut : Option ℕ

/-- One step of a distribution whose stream is already split. Two shards are the recovery
threshold. Opening the manifest truncates it; what is written afterwards is lost with the file when
that has been removed in between. -/
def distStep (H : Sha256) (u : SealedUpload) (route : Route) (e : DistEvent) (w : World) :
    DistPc → World × DistPc
  | .placing (i :: todo) placed =>
      if e.hashes = false then (w, .finished 1 placed)
      else if e.connects = false then (w, .placing todo placed)
      else
        let put := w.askPeer e.env e.link (route.peers i).bytes
          (putChunkLine (chunkId H u i) (u.shard i).length) (u.shard i)
        match putChunkReply put.2 with
        | .error _ => (put.1, .placing todo placed)
        | .ok () => (put.1, .placing todo (placed ++ [i]))
  | .placing [] placed =>
      if placed.length < Config.kDataShards then (w, .finished 1 placed) else (w, .opening placed)
  | .opening placed =>
      if e.opens = false then (w, .finished 1 placed)
      else ({ w with pending := some [] }, .writing placed)
  | .writing placed =>
      let text := (manifestOf H u route placed).text
      match e.cut with
      | some k => ({ w with pending := w.pending.map fun _ => text.take k }, .finished 1 placed)
      | none => ({ w with pending := w.pending.map fun _ => text }, .finished 0 placed)
  | .finished code placed => (w, .finished code placed)

def DistPc.start : DistPc := .placing [.d0, .d1, .p0, .p1] []

def distRun (H : Sha256) (u : SealedUpload) (route : Route) (w : World) (es : List DistEvent) :
    World × DistPc :=
  Machine.run (fun x e => distStep H u route e x.1 x.2) (w, .start) es

section Distribution

variable {H : Sha256} {u : SealedUpload} {route : Route}

theorem isSafeChunkId_chunkId (i : Shard) : isSafeChunkId (chunkId H u i) = true :=
  isSafeChunkId_toHex (H.length_digest _)

theorem eq_of_hex_eq {b c : Bytes} (hfree : H.CollisionFree b) (h : H.hex c = H.hex b) : c = b :=
  hfree c (toHex_injective h)

def Placed (H : Sha256) (u : SealedUpload) (route : Route) (w : World) (placed : List Shard) :
    Prop :=
  ∀ i ∈ placed, w.chunk (route.peers i).bytes (chunkId H u i) = some (u.shard i) ∧
    (u.shard i).length ≤ Config.kMaxTransferSize.toNat

/-- The shards come in their order, and two of them are there before anything is recorded. -/
def DistPc.WellFormed : DistPc → Prop
  | .placing todo placed => (placed ++ todo).Sublist [.d0, .d1, .p0, .p1]
  | .opening placed | .writing placed | .finished 0 placed =>
      placed.Sublist [.d0, .d1, .p0, .p1] ∧ Config.kDataShards ≤ placed.length
  | .finished (_ + 1) placed => placed.Sublist [.d0, .d1, .p0, .p1]

theorem DistPc.start_wellFormed : DistPc.start.WellFormed := List.Sublist.refl _

variable (H u route) in
/-- The attempt at one shard: it is given up, it changes no chunk, or it stores the shard, which is
then recorded unless the reply is lost. -/
theorem distStep_placing (e : DistEvent) (w : World) (i : Shard) (todo placed : List Shard) :
    (distStep H u route e w (.placing (i :: todo) placed)).1.server = w.server ∧
    (distStep H u route e w (.placing (i :: todo) placed)).1.pending = w.pending ∧
    ((∀ p id, (distStep H u route e w (.placing (i :: todo) placed)).1.chunk p id = w.chunk p id) ∧
      ((distStep H u route e w (.placing (i :: todo) placed)).2 = .finished 1 placed ∨
        (distStep H u route e w (.placing (i :: todo) placed)).2 = .placing todo placed) ∨
    (u.shard i).length ≤ Config.kMaxTransferSize.toNat ∧
      (∀ p id, (distStep H u route e w (.placing (i :: todo) placed)).1.chunk p id =
        if p = (route.peers i).bytes ∧ id = chunkId H u i then some (u.shard i)
        else w.chunk p id) ∧
      ((distStep H u route e w (.placing (i :: todo) placed)).2 = .placing todo placed ∨
        (distStep H u route e w (.placing (i :: todo) placed)).2 =
          .placing todo (placed ++ [i]))) := by
  simp only [distStep]
  by_cases hhash : e.hashes = false
  · simp [hhash]
  by_cases hconn : e.connects = false
  · simp [hhash, hconn]
  rw [if_neg hhash, if_neg hconn]
  have hput := w.chunk_putChunk e.env e.link (route.peers i).bytes
    (isSafeChunkId_chunkId i : isSafeChunkId (chunkId H u i) = true) (u.shard i)
  split
  · next herr =>
    refine ⟨rfl, rfl, ?_⟩
    rcases hput with ⟨hsize, hchunk⟩ | ⟨-, hchunk⟩
    · exact .inr ⟨hsize, hchunk, .inl rfl⟩
    · exact .inl ⟨hchunk, .inr rfl⟩
  · next hok =>
    refine ⟨rfl, rfl, ?_⟩
    rcases hput with ⟨hsize, hchunk⟩ | ⟨hfail, -⟩
    · exact .inr ⟨hsize, hchunk, .inr rfl⟩
    · exact absurd hok hfail

variable (H u route) in
theorem distStep_recording (e : DistEvent) (w : World) {pc : DistPc}
    (h : ∀ i todo placed, pc ≠ .placing (i :: todo) placed) :
    (distStep H u route e w pc).1.server = w.server ∧
    (∀ p id, (distStep H u route e w pc).1.chunk p id = w.chunk p id) ∧
    (distStep H u route e w pc).2.placed = pc.placed := by
  cases pc with
  | placing todo placed =>
    cases todo with
    | nil =>
      simp only [distStep]
      split_ifs
      · exact ⟨rfl, fun _ _ => rfl, rfl⟩
      · exact ⟨rfl, fun _ _ => rfl, rfl⟩
    | cons i todo => exact absurd rfl (h i todo placed)
  | opening placed =>
    simp only [distStep]
    split_ifs
    · exact ⟨rfl, fun _ _ => rfl, rfl⟩
    · exact ⟨rfl, fun _ _ => rfl, rfl⟩
  | writing placed =>
    simp only [distStep]
    split
    · exact ⟨rfl, fun _ _ => rfl, rfl⟩
    · exact ⟨rfl, fun _ _ => rfl, rfl⟩
  | finished code placed => exact ⟨rfl, fun _ _ => rfl, rfl⟩

theorem distStep_server (e : DistEvent) (w : World) (pc : DistPc) :
    (distStep H u route e w pc).1.server = w.server := by
  by_cases h : ∀ i todo placed, pc ≠ .placing (i :: todo) placed
  · exact (distStep_recording H u route e w h).1
  · push Not at h
    obtain ⟨i, todo, placed, rfl⟩ := h
    exact (distStep_placing H u route e w i todo placed).1

/-- What is placed stays placed: a shard stored later under the same identifier is the same. -/
theorem distStep_placed (hH : ∀ i, H.CollisionFree (u.shard i)) (e : DistEvent) {w : World}
    {pc : DistPc} (h : Placed H u route w pc.placed) :
    Placed H u route (distStep H u route e w pc).1 (distStep H u route e w pc).2.placed := by
  by_cases hpc : ∀ i todo placed, pc ≠ .placing (i :: todo) placed
  · obtain ⟨-, hchunk, hplaced⟩ := distStep_recording H u route e w hpc
    rw [hplaced]
    intro j hj
    rw [hchunk]
    exact h j hj
  · push Not at hpc
    obtain ⟨i, todo, placed, rfl⟩ := hpc
    obtain ⟨-, -, ⟨hchunk, hnext⟩ | ⟨hsize, hchunk, hnext⟩⟩ :=
      distStep_placing H u route e w i todo placed
    · have hsame : (distStep H u route e w (.placing (i :: todo) placed)).2.placed = placed := by
        rcases hnext with hnext | hnext
        · rw [hnext, DistPc.placed]
        · rw [hnext, DistPc.placed]
      rw [hsame]
      intro j hj
      rw [hchunk]
      exact h j hj
    · have hstored : ∀ j ∈ placed ++ [i],
          (distStep H u route e w (.placing (i :: todo) placed)).1.chunk (route.peers j).bytes
            (chunkId H u j) = some (u.shard j) ∧
          (u.shard j).length ≤ Config.kMaxTransferSize.toNat := by
        intro j hj
        rw [hchunk]
        split_ifs with hij
        · rw [eq_of_hex_eq (hH i) hij.2]
          exact ⟨rfl, hsize⟩
        · rcases List.mem_append.mp hj with hj | hj
          · exact h j hj
          · obtain rfl := List.mem_singleton.mp hj
            exact absurd ⟨rfl, rfl⟩ hij
      intro j hj
      apply hstored
      rcases hnext with hnext | hnext
      · rw [hnext, DistPc.placed] at hj
        exact List.mem_append_left _ hj
      · rwa [hnext, DistPc.placed] at hj

theorem distStep_wellFormed (e : DistEvent) (w : World) {pc : DistPc} (h : pc.WellFormed) :
    (distStep H u route e w pc).2.WellFormed := by
  cases pc with
  | placing todo placed =>
    cases todo with
    | nil =>
      simp only [distStep]
      have hplaced : placed.Sublist [.d0, .d1, .p0, .p1] := by simpa [DistPc.WellFormed] using h
      split_ifs with hfew
      · exact hplaced
      · exact ⟨hplaced, not_lt.mp hfew⟩
    | cons i todo =>
      have hkeep : (DistPc.placing todo (placed ++ [i])).WellFormed := by
        simpa [DistPc.WellFormed] using h
      have hskip : (DistPc.placing todo placed).WellFormed :=
        ((List.sublist_cons_self i todo).append_left placed).trans h
      obtain ⟨-, -, ⟨-, hnext | hnext⟩ | ⟨-, -, hnext | hnext⟩⟩ :=
        distStep_placing H u route e w i todo placed
      · rw [hnext]
        exact (List.sublist_append_left placed _).trans h
      · rwa [hnext]
      · rwa [hnext]
      · rwa [hnext]
  | opening placed =>
    simp only [distStep]
    split_ifs
    · exact h.1
    · exact h
  | writing placed =>
    simp only [distStep]
    split
    · exact h.1
    · exact h
  | finished code placed => exact h

variable (H u route) in
theorem distRun_wellFormed (w : World) (es : List DistEvent) :
    (distRun H u route w es).2.WellFormed :=
  Machine.inv_run_all (I := fun x : World × DistPc => x.2.WellFormed)
    (fun x e hx => distStep_wellFormed e x.1 hx) DistPc.start_wellFormed es

theorem DistPc.WellFormed.nodup {pc : DistPc} (h : pc.WellFormed) : pc.placed.Nodup := by
  have hall : [Shard.d0, .d1, .p0, .p1].Nodup := by decide
  cases pc with
  | placing todo placed => exact ((List.sublist_append_left placed todo).trans h).nodup hall
  | opening placed | writing placed => exact h.1.nodup hall
  | finished code placed =>
    cases code with
    | zero => exact h.1.nodup hall
    | succ code => exact List.Sublist.nodup h hall

variable (route) in
/-- A distribution leaves the server alone, and what it has placed is there. -/
theorem distRun_placed (hH : ∀ i, H.CollisionFree (u.shard i)) (w : World) (es : List DistEvent) :
    (distRun H u route w es).1.server = w.server ∧
    (distRun H u route w es).2.WellFormed ∧
    Placed H u route (distRun H u route w es).1 (distRun H u route w es).2.placed := by
  have hstart : w.server = w.server ∧ DistPc.start.WellFormed ∧
      Placed H u route w DistPc.start.placed := ⟨rfl, DistPc.start_wellFormed, by simp [Placed,
    DistPc.start, DistPc.placed]⟩
  refine Machine.inv_run_all (I := fun x : World × DistPc => x.1.server = w.server ∧
    x.2.WellFormed ∧ Placed H u route x.1 x.2.placed) ?_ hstart es
  rintro ⟨w', pc⟩ e ⟨hserver, hwell, hplaced⟩
  exact ⟨(distStep_server e w' pc).trans hserver, distStep_wellFormed e w' hwell,
    distStep_placed hH e hplaced⟩

/-- What a distribution leaves of the record of the name. -/
def DistPc.Recorded (H : Sha256) (u : SealedUpload) (route : Route) (before now : Option Bytes) :
    DistPc → Prop
  | .placing _ _ | .opening _ => now = before
  | .writing _ => now = some []
  | .finished 0 placed => now = some (manifestOf H u route placed).text
  | .finished (_ + 1) placed =>
      now = before ∨ ∃ k, now = some ((manifestOf H u route placed).text.take k)

variable (H u route) in
theorem distStep_unwritten (e : DistEvent) (w : World) (todo placed : List Shard) :
    (distStep H u route e w (.placing todo placed)).1.pending = w.pending ∧
    ((∃ todo' placed', (distStep H u route e w (.placing todo placed)).2 =
        .placing todo' placed') ∨
      (∃ placed', (distStep H u route e w (.placing todo placed)).2 = .opening placed') ∨
      ∃ placed', (distStep H u route e w (.placing todo placed)).2 = .finished 1 placed') := by
  cases todo with
  | nil =>
    simp only [distStep]
    split_ifs
    · exact ⟨rfl, .inr (.inr ⟨placed, rfl⟩)⟩
    · exact ⟨rfl, .inr (.inl ⟨placed, rfl⟩)⟩
  | cons i todo =>
    obtain ⟨-, hpending, ⟨-, hnext | hnext⟩ | ⟨-, -, hnext | hnext⟩⟩ :=
      distStep_placing H u route e w i todo placed
    · exact ⟨hpending, .inr (.inr ⟨placed, hnext⟩)⟩
    · exact ⟨hpending, .inl ⟨todo, placed, hnext⟩⟩
    · exact ⟨hpending, .inl ⟨todo, placed, hnext⟩⟩
    · exact ⟨hpending, .inl ⟨todo, placed ++ [i], hnext⟩⟩

theorem distStep_recorded (e : DistEvent) {w : World} {pc : DistPc} {before : Option Bytes}
    (h : pc.Recorded H u route before w.pending) :
    (distStep H u route e w pc).2.Recorded H u route before (distStep H u route e w pc).1.pending := by
  cases pc with
  | placing todo placed =>
    obtain ⟨hpending, ⟨_, _, hnext⟩ | ⟨_, hnext⟩ | ⟨_, hnext⟩⟩ :=
      distStep_unwritten H u route e w todo placed
    · rw [hnext, hpending]
      exact h
    · rw [hnext, hpending]
      exact h
    · rw [hnext, hpending]
      exact .inl h
  | opening placed =>
    simp only [distStep]
    split_ifs
    · exact .inl h
    · rfl
  | writing placed =>
    have hopen : w.pending = some [] := h
    simp only [distStep]
    split
    · next k _ => exact .inr ⟨k, by rw [hopen, Option.map_some]⟩
    · rw [hopen]
      rfl
  | finished code placed => exact h

variable (H u route) in
theorem distRun_recorded (w : World) (es : List DistEvent) :
    (distRun H u route w es).2.Recorded H u route w.pending (distRun H u route w es).1.pending := by
  have hstart : DistPc.start.Recorded H u route w.pending w.pending := rfl
  exact Machine.inv_run_all (I := fun x : World × DistPc =>
    x.2.Recorded H u route w.pending x.1.pending) (fun _ e hx => distStep_recorded e hx) hstart es

end Distribution

end PersonalCloud
