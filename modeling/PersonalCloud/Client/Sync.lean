import PersonalCloud.Client.Recover

/-! Forwarding a pending file to its server: the shards are fetched and put together, the stream is
delivered unless the server has identical content, and only then the shards are released and the
record goes. -/
namespace PersonalCloud

open Proto Channel Remote Store Session

inductive SyncPc where
  | start
  | fetching (m : Manifest) (todo : List ShardRef) (r : Recovered)
  | rebuilt (m : Manifest) (stream : Bytes)
  | forwarding (m : Manifest) (stream : Bytes)
  | releasing (m : Manifest) (todo : List ShardRef)
  | finished (result : Except String Unit)

/-- What happens in one step of a synchronisation: how the manifest is read, what a peer sends, what
local storage does during the join, the connection, and whether the manifest file goes. -/
structure SyncEvent where
  manifest : FileRead
  fetch : Fetch
  join : JoinStorage
  connects : Bool
  env : SessionEnv
  link : Link
  removes : Bool

/-- One step of a synchronisation. It needs no passphrase, as only sealed streams pass through; and
cleaning up is an attempt that may fail shard by shard. -/
def syncStep (H : Sha256) (a : Account) (e : SyncEvent) (w : World) : SyncPc → World × SyncPc
  | .start =>
      match w.pending.bind e.manifest.of with
      | none => (w, .finished (.error "cannot read"))
      | some content =>
          match Manifest.read content with
          | .error reason => (w, .finished (.error reason))
          | .ok m => (w, .fetching m m.shards .start)
  | .fetching m (ref :: todo) r => (w, .fetching m todo (fetchShard H e.fetch ref r))
  | .fetching m [] r =>
      match joinRecovered e.join m r with
      | .error reason => (w, .finished (.error reason))
      | .ok stream => (w, .rebuilt m stream)
  | .rebuilt m stream =>
      if e.connects = false then (w, .finished (.error "no connection to the server"))
      else
        let stat := w.askServer a e.env e.link (statLine m.name) []
        if alreadyThere m.dedupTag (statReply stat.2) then (stat.1, .releasing m m.shards)
        else (stat.1, .forwarding m stream)
  | .forwarding m stream =>
      let put := w.askServer a e.env e.link (putFileLine m.name m.dedupTag stream.length) stream
      match putFileReply put.2 with
      | .error reason => (put.1, .finished (.error reason))
      | .ok () => (put.1, .releasing m m.shards)
  | .releasing m (ref :: todo) =>
      if e.connects = false then (w, .releasing m todo)
      else
        ((w.askPeer e.env e.link ref.peer (delChunkLine ref.chunkId) []).1, .releasing m todo)
  | .releasing _ [] =>
      ({ w with pending := if e.removes then none else w.pending }, .finished (.ok ()))
  | .finished result => (w, .finished result)

/-- A synchronisation on its own, stopped after the given steps. -/
def syncRun (H : Sha256) (a : Account) (w : World) (es : List SyncEvent) : World × SyncPc :=
  Machine.run (fun x e => syncStep H a e x.1 x.2) (w, .start) es

def SyncPc.released : SyncPc → Bool
  | releasing _ _ | finished (.ok _) => true
  | _ => false

/-- The record is that of an upload, with some of its shards. -/
structure RecordOf (H : Sha256) (u : SealedUpload) (m : Manifest) : Prop where
  name : m.name = wireName u.name
  sizes : RecordsSizes u m
  dedupTag : m.dedupTag = u.tag
  shards : Describes H u m.shards

instance (H : Sha256) (u : SealedUpload) (m : Manifest) : Decidable (RecordOf H u m) :=
  decidable_of_iff (m.name = wireName u.name ∧ RecordsSizes u m ∧ m.dedupTag = u.tag ∧
      Describes H u m.shards)
    ⟨fun h => ⟨h.1, h.2.1, h.2.2.1, h.2.2.2⟩, fun h => ⟨h.1, h.2, h.3, h.4⟩⟩

section Records

variable {H : Sha256} {u : SealedUpload} {route : Route}

theorem index_le (i : Shard) : i.index ≤ 3 := by cases i <;> decide

theorem RecordsSizes.le_kMaxSize {m : Manifest} (h : RecordsSizes u m) :
    m.streamSize ≤ Manifest.kMaxSize ∧ m.shardSize ≤ Manifest.kMaxSize := by
  have hlt := u.stream_lt
  have hmax : Manifest.kMaxSize.toNat = 2 ^ 63 - 1 := by decide
  rw [UInt64.le_iff_toNat_le, UInt64.le_iff_toNat_le, h.streamSize, h.shardSize, hmax]
  omega

theorem writable_manifestOf (placed : List Shard) : (manifestOf H u route placed).Writable where
  server := route.server.isField
  name hmem := (isPlain_of_isSafeName u.name_safe 10 hmem).1 rfl
  streamSize := (recordsSizes_manifestOf placed).le_kMaxSize.1
  shardSize := (recordsSizes_manifestOf placed).le_kMaxSize.2
  dedupTag := u.tag_hex.imp_right fun h =>
    ⟨isWord_of_isSafeChunkId h, fun hmem => (isPlain_of_isSafeChunkId h 10 hmem).1 rfl⟩
  dataShards := (by decide : 1 ≤ Config.kDataShards ∧ Config.kDataShards ≤ 16)
  parityShards := (by decide : Config.kParityShards ≤ 16)
  shards ref href := by
    obtain ⟨i, -, rfl⟩ := List.mem_map.mp href
    exact ⟨index_le i, isSafeChunkId_chunkId i, (route.peers i).isField⟩

theorem recordOf_cutOf {placed : List Shard} (hnodup : placed.Nodup) {m : Manifest}
    (h : m.CutOf (manifestOf H u route placed)) : RecordOf H u m := by
  obtain ⟨refs, hrefs, rfl⟩ := h
  have hsizes : RecordsSizes u (manifestOf H u route placed) := recordsSizes_manifestOf placed
  have hdesc : Describes H u (manifestOf H u route placed).shards := describes_manifestOf hnodup
  refine ⟨rfl, ⟨hsizes.streamSize, hsizes.shardSize⟩, rfl, ?_, ?_⟩
  · have hindex := hrefs.map Prod.fst
    rw [List.map_map, List.map_map] at hindex
    exact hindex.sublist.nodup hdesc.1
  · intro ref href
    obtain ⟨other, hother, hwhat⟩ := List.mem_map.mp (hrefs.subset (List.mem_map_of_mem href))
    obtain ⟨i, hi, hid⟩ := hdesc.2 other hother
    obtain ⟨hindex, hchunk⟩ := Prod.mk.inj hwhat
    exact ⟨i, hindex.symm.trans hi, hchunk.symm.trans hid⟩

def PartOfRecord (H : Sha256) (u : SealedUpload) (route : Route) (content : Bytes) : Prop :=
  ∃ placed : List Shard, placed.Nodup ∧ ∃ k, content = (manifestOf H u route placed).text.take k

theorem PartOfRecord.of {r : FileRead} {content got : Bytes} (h : PartOfRecord H u route content)
    (hr : r.of content = some got) : PartOfRecord H u route got := by
  obtain ⟨placed, hnodup, k, rfl⟩ := h
  cases r with
  | notOpened => contradiction
  | cut n => exact ⟨placed, hnodup, min n k, by rw [← Option.some.inj hr, List.take_take]⟩
  | done => exact ⟨placed, hnodup, k, (Option.some.inj hr).symm⟩

/-- What is read of the record of an upload, or of a part of it, describes the upload, or lists no
shard at all. -/
theorem PartOfRecord.read {content : Bytes} (h : PartOfRecord H u route content) {m : Manifest}
    (hread : Manifest.read content = .ok m) : m.shards = [] ∨ RecordOf H u m := by
  obtain ⟨placed, hnodup, k, rfl⟩ := h
  exact (Manifest.read_take (writable_manifestOf placed) hread).imp_right (recordOf_cutOf hnodup)

end Records

/-- No file but temporary ones has changed. -/
def SameFiles (d d' : Disk) : Prop :=
  ∀ p, (∀ random, p ≠ tempPath random) → d'.content p = d.content p

section Steps

variable {H : Sha256} {a : Account} {u : SealedUpload}

theorem SameFiles.refl (d : Disk) : SameFiles d d := fun _ _ => rfl

theorem SameFiles.trans {d d' d'' : Disk} (h : SameFiles d d') (h' : SameFiles d' d'') :
    SameFiles d d'' := fun p hp => (h' p hp).trans (h p hp)

theorem SameFiles.run_temp {random : Bytes} {steps : List DiskStep}
    (h : ∀ st ∈ steps, st.OnTemp random) (d : Disk) : SameFiles d (d.run steps) :=
  fun _ hp => content_run_temp h (hp random)

theorem SameFiles.fileOn {d d' : Disk} (h : SameFiles d d') : u.fileOn a d' = u.fileOn a d := by
  unfold SealedUpload.fileOn
  cases hpath : filePath a.user (wireName u.name) with
  | none => rfl
  | some p => exact h p fun _ => (tempPath_ne_filePath hpath).symm

theorem SameFiles.shownOn {d d' : Disk} (h : SameFiles d d') : u.ShownOn a d' ↔ u.ShownOn a d := by
  unfold SealedUpload.ShownOn ShowsTag
  rw [fileInfo_congr h]

/-- Only the cleanup touches the peers, and the record. -/
theorem syncStep_before_release (e : SyncEvent) (w : World) {pc : SyncPc}
    (h : ∀ m todo, pc ≠ .releasing m todo) :
    (syncStep H a e w pc).1.pending = w.pending ∧
    ∀ p id, (syncStep H a e w pc).1.chunk p id = w.chunk p id := by
  cases pc with
  | start =>
    simp only [syncStep]
    split
    · exact ⟨rfl, fun _ _ => rfl⟩
    · split
      · exact ⟨rfl, fun _ _ => rfl⟩
      · exact ⟨rfl, fun _ _ => rfl⟩
  | fetching m todo r =>
    cases todo with
    | nil =>
      simp only [syncStep]
      split
      · exact ⟨rfl, fun _ _ => rfl⟩
      · exact ⟨rfl, fun _ _ => rfl⟩
    | cons ref todo => exact ⟨rfl, fun _ _ => rfl⟩
  | rebuilt m stream =>
    simp only [syncStep]
    split_ifs
    · exact ⟨rfl, fun _ _ => rfl⟩
    · exact ⟨rfl, fun _ _ => rfl⟩
    · exact ⟨rfl, fun _ _ => rfl⟩
  | forwarding m stream =>
    simp only [syncStep]
    split
    · exact ⟨rfl, fun _ _ => rfl⟩
    · exact ⟨rfl, fun _ _ => rfl⟩
  | releasing m todo => exact absurd rfl (h m todo)
  | finished result => exact ⟨rfl, fun _ _ => rfl⟩

/-- Asking changes nothing, and identical content is only believed in when the server answers with
the tag. -/
theorem syncStep_rebuilt (e : SyncEvent) (w : World) {m : Manifest} (hname : IsPlain m.name)
    (stream : Bytes) :
    (syncStep H a e w (.rebuilt m stream)).1 = w ∧
    ((∃ reason, (syncStep H a e w (.rebuilt m stream)).2 = .finished (.error reason)) ∨
      (syncStep H a e w (.rebuilt m stream)).2 = .forwarding m stream ∨
      (syncStep H a e w (.rebuilt m stream)).2 = .releasing m m.shards ∧ e.connects = true ∧
        w.Tells a e.env e.link m.name m.dedupTag) := by
  have hstat := w.askServer_stat e.env e.link a hname
  simp only [syncStep]
  split_ifs with hconn hthere
  · exact ⟨rfl, .inl ⟨_, rfl⟩⟩
  · exact ⟨hstat, .inr (.inr ⟨rfl, by simpa using hconn, hthere⟩)⟩
  · exact ⟨hstat, .inr (.inl rfl)⟩

/-- A stream that is forwarded is stored, or nothing changes and the attempt fails. -/
theorem syncStep_forwarding (e : SyncEvent) (w : World) {m : Manifest} (hname : IsPlain m.name)
    (htag : IsTag m.dedupTag) (stream : Bytes) :
    ((∃ final o, filePath a.user (wireName m.name) = some final ∧
        stream.length ≤ Config.kMaxTransferSize.toNat ∧
        (syncStep H a e w (.forwarding m stream)).1.server =
          w.server.run (uploadSteps (tempPath e.env.random) final stream e.env.now o a.user
            (wireName m.name) (wireTag m.dedupTag))) ∧
      ((∃ reason, (syncStep H a e w (.forwarding m stream)).2 = .finished (.error reason)) ∨
        (syncStep H a e w (.forwarding m stream)).2 = .releasing m m.shards)) ∨
    (SameFiles w.server (syncStep H a e w (.forwarding m stream)).1.server ∧
      ∃ reason, (syncStep H a e w (.forwarding m stream)).2 = .finished (.error reason)) := by
  simp only [syncStep]
  rcases w.askServer_putFile e.env e.link a hname htag stream with
    ⟨final, hfinal, hsize, hserver⟩ | ⟨hreply, steps, htemp, hserver⟩
  · left
    split
    · exact ⟨⟨final, _, hfinal, hsize, hserver⟩, .inl ⟨_, rfl⟩⟩
    · exact ⟨⟨final, _, hfinal, hsize, hserver⟩, .inr rfl⟩
  · right
    split
    · next reason _ => exact ⟨hserver ▸ SameFiles.run_temp htemp _, reason, rfl⟩
    · next hok => exact absurd hok hreply

theorem syncStep_releasing (e : SyncEvent) (w : World) (m : Manifest) {ref : ShardRef}
    (hid : isSafeChunkId ref.chunkId = true) (todo : List ShardRef) :
    (syncStep H a e w (.releasing m (ref :: todo))).1.server = w.server ∧
    (syncStep H a e w (.releasing m (ref :: todo))).1.pending = w.pending ∧
    (syncStep H a e w (.releasing m (ref :: todo))).2 = .releasing m todo ∧
    ((∀ p id, (syncStep H a e w (.releasing m (ref :: todo))).1.chunk p id = w.chunk p id) ∨
      ∀ p id, (syncStep H a e w (.releasing m (ref :: todo))).1.chunk p id =
        if p = ref.peer ∧ id = ref.chunkId then none else w.chunk p id) := by
  simp only [syncStep]
  split_ifs
  · exact ⟨rfl, rfl, rfl, .inl fun _ _ => rfl⟩
  · exact ⟨rfl, rfl, rfl, w.chunk_delChunk e.env e.link ref.peer hid⟩

/-- Every chunk that may be released has an identifier that can be sent. -/
def SyncPc.Safe : SyncPc → Prop
  | .start | .finished _ => True
  | .fetching m _ _ | .rebuilt m _ | .forwarding m _ =>
      ∀ ref ∈ m.shards, isSafeChunkId ref.chunkId = true
  | .releasing _ todo => ∀ ref ∈ todo, isSafeChunkId ref.chunkId = true

theorem syncStep_safe (e : SyncEvent) (w : World) {pc : SyncPc} (h : pc.Safe) :
    (syncStep H a e w pc).2.Safe := by
  cases pc with
  | start =>
    simp only [syncStep]
    split
    · trivial
    · split
      · trivial
      · next m hread => exact Manifest.read_shards_safe hread
  | fetching m todo r =>
    cases todo with
    | nil =>
      simp only [syncStep]
      split
      · trivial
      · exact h
    | cons ref todo => exact h
  | rebuilt m stream =>
    simp only [syncStep]
    split_ifs
    · trivial
    · exact h
    · exact h
  | forwarding m stream =>
    simp only [syncStep]
    split
    · trivial
    · exact h
  | releasing m todo =>
    cases todo with
    | nil => trivial
    | cons ref todo =>
      rw [(syncStep_releasing (H := H) (a := a) e w m (h ref List.mem_cons_self) todo).2.2.1]
      exact fun other hother => h other (List.mem_cons_of_mem _ hother)
  | finished result => trivial

/-- Whatever is forwarded, the record and each chunk stay as they are or go. -/
theorem syncStep_only_removes (e : SyncEvent) (w : World) {pc : SyncPc} (h : pc.Safe) :
    ((syncStep H a e w pc).1.pending = w.pending ∨ (syncStep H a e w pc).1.pending = none) ∧
    ∀ p id, (syncStep H a e w pc).1.chunk p id = w.chunk p id ∨
      (syncStep H a e w pc).1.chunk p id = none := by
  by_cases hpc : ∀ m todo, pc ≠ .releasing m todo
  · obtain ⟨hpending, hchunk⟩ := syncStep_before_release (H := H) (a := a) e w hpc
    exact ⟨.inl hpending, fun p id => .inl (hchunk p id)⟩
  · push Not at hpc
    obtain ⟨m, todo, rfl⟩ := hpc
    cases todo with
    | nil =>
      refine ⟨?_, fun _ _ => .inl rfl⟩
      simp only [syncStep]
      split_ifs
      · exact .inr rfl
      · exact .inl rfl
    | cons ref todo =>
      obtain ⟨-, hpending, -, hchunk⟩ := syncStep_releasing (H := H) (a := a) e w m
        (h ref List.mem_cons_self) todo
      refine ⟨.inl hpending, fun p id => ?_⟩
      rcases hchunk with hchunk | hchunk
      · exact .inl (hchunk p id)
      · rw [hchunk]
        split_ifs
        · exact .inr rfl
        · exact .inl rfl

theorem syncRun_only_removes (w : World) (es : List SyncEvent) :
    ((syncRun H a w es).1.pending = w.pending ∨ (syncRun H a w es).1.pending = none) ∧
    ∀ p id, (syncRun H a w es).1.chunk p id = w.chunk p id ∨
      (syncRun H a w es).1.chunk p id = none := by
  have hstart : SyncPc.start.Safe ∧ (w.pending = w.pending ∨ w.pending = none) ∧
      ∀ p id, w.chunk p id = w.chunk p id ∨ w.chunk p id = none :=
    ⟨trivial, .inl rfl, fun _ _ => .inl rfl⟩
  refine (Machine.inv_run_all (I := fun x : World × SyncPc => x.2.Safe ∧
    (x.1.pending = w.pending ∨ x.1.pending = none) ∧
    ∀ p id, x.1.chunk p id = w.chunk p id ∨ x.1.chunk p id = none) ?_ hstart es).2
  rintro ⟨w', pc⟩ e ⟨hsafe, hpending, hchunk⟩
  obtain ⟨hpending', hchunk'⟩ := syncStep_only_removes (H := H) (a := a) e w' hsafe
  refine ⟨syncStep_safe e w' hsafe, ?_, fun p id => ?_⟩
  · rcases hpending' with hsame | hnone
    · rwa [hsame]
    · exact .inr hnone
  · rcases hchunk' p id with hsame | hnone
    · rw [hsame]
      exact hchunk p id
    · exact .inr hnone

end Steps

section Delivery

variable {H : Sha256} {a : Account} {u : SealedUpload} {route : Route}

def SyncPc.Sound (H : Sha256) (u : SealedUpload) : SyncPc → Prop
  | .start | .finished _ => True
  | .fetching m todo r => (todo = [] ∧ r.recovered = 0) ∨
      (RecordOf H u m ∧ Describes H u todo ∧ r.Verified u todo)
  | .rebuilt m stream | .forwarding m stream => RecordOf H u m ∧ stream = u.stream
  | .releasing m todo => RecordOf H u m ∧ todo ⊆ m.shards

/-- The server stores the stream, or it has not changed and showed its tag before. -/
def Delivered (a : Account) (u : SealedUpload) (before now : Disk) : Prop :=
  u.fileOn a now = some u.stream ∨ u.ShownOn a before ∧ SameFiles before now

/-- What holds throughout a synchronisation that began with the given world. -/
structure Delivering (H : Sha256) (a : Account) (u : SealedUpload) (w0 : World)
    (x : World × SyncPc) : Prop where
  sound : x.2.Sound H u
  server : u.fileOn a x.1.server = some u.stream ∨ SameFiles w0.server x.1.server
  pending : x.1.pending = w0.pending ∨ x.1.pending = none
  kept : x.2.released = false → x.1.pending = w0.pending ∧ ∀ p id, x.1.chunk p id = w0.chunk p id
  delivered : x.2.released = true → Delivered a u w0.server x.1.server

/-- What a rebuilt stream loses at its final close is made up for by the trim. -/
def KeepsAtJoin (u : SealedUpload) (x : World × SyncPc) (e : SyncEvent) : Prop :=
  ∀ m r, x.2 = .fetching m [] r → e.join.Keeps u.stream

/-- What a synchronisation needs when it follows a record of the upload: the trim makes up for what
the rebuilt stream loses at its final close, and the server answers with the tag of the upload only
when it holds that content. -/
def FollowsWell {κ : Type*} (H : Sha256) (a : Account) (content : Bytes → κ) (u : SealedUpload)
    (x : World × SyncPc) (e : SyncEvent) : Prop :=
  match x.2 with
  | .fetching m [] _ => RecordOf H u m → e.join.Keeps u.stream
  | .rebuilt m _ => RecordOf H u m → e.connects = true →
      x.1.Tells a e.env e.link m.name m.dedupTag → u.StoredOn content a x.1.server
  | _ => True

instance {κ : Type*} [DecidableEq κ] (H : Sha256) (a : Account) (content : Bytes → κ)
    (u : SealedUpload) : ∀ (x : World × SyncPc) (e : SyncEvent),
      Decidable (FollowsWell H a content u x e)
  | (_, .fetching m [] _), e => inferInstanceAs (Decidable (RecordOf H u m → e.join.Keeps u.stream))
  | (w, .rebuilt m _), e => inferInstanceAs (Decidable (RecordOf H u m → e.connects = true →
      w.Tells a e.env e.link m.name m.dedupTag → u.StoredOn content a w.server))
  | (_, .start), _ | (_, .fetching _ (_ :: _) _), _ | (_, .forwarding _ _), _
  | (_, .releasing _ _), _ | (_, .finished _), _ => inferInstanceAs (Decidable True)

theorem FollowsWell.keeps {κ : Type*} {content : Bytes → κ} {x : World × SyncPc} {e : SyncEvent}
    (h : FollowsWell H a content u x e) {m : Manifest} {r : Recovered}
    (hpc : x.2 = .fetching m [] r) (hrecord : RecordOf H u m) : e.join.Keeps u.stream := by
  rw [FollowsWell, hpc] at h
  exact h hrecord

theorem RecordOf.plain {m : Manifest} (h : RecordOf H u m) :
    IsPlain m.name ∧ IsTag m.dedupTag ∧ wireName m.name = wireName u.name := by
  rw [h.name, h.dedupTag]
  exact ⟨isPlain_wireName (isPlain_of_isSafeName u.name_safe), u.isTag_tag, wireName_wireName _⟩

theorem Describes.safe {refs : List ShardRef} (h : Describes H u refs) {ref : ShardRef}
    (href : ref ∈ refs) : isSafeChunkId ref.chunkId = true := by
  obtain ⟨i, -, hid⟩ := h.2 ref href
  rw [hid]
  exact isSafeChunkId_chunkId i

theorem fileOn_run_upload {d : Disk} {random : Bytes} {final : Path} {now : ℤ} {o : FileWrite}
    {tag : Bytes} (h : filePath a.user (wireName u.name) = some final) :
    u.fileOn a (d.run (uploadSteps (tempPath random) final u.stream now o a.user (wireName u.name)
      tag)) = some u.stream := by
  rw [SealedUpload.fileOn, h]
  exact content_run_upload o h

theorem syncStep_sound (hH : ∀ i, H.CollisionFree (u.shard i)) (e : SyncEvent) {w : World}
    {pc : SyncPc} (hread : pc = .start → ∀ t m, w.pending.bind e.manifest.of = some t →
      Manifest.read t = .ok m → m.shards = [] ∨ RecordOf H u m) (h : pc.Sound H u)
    (hkeeps : ∀ m r, pc = .fetching m [] r → RecordOf H u m → e.join.Keeps u.stream) :
    (syncStep H a e w pc).2.Sound H u := by
  cases pc with
  | start =>
    simp only [syncStep]
    split
    · trivial
    · next content hcontent =>
      split
      · trivial
      · next m hm =>
        rcases hread rfl content m hcontent hm with hnone | hrecord
        · exact .inl ⟨hnone, rfl⟩
        · exact .inr ⟨hrecord, hrecord.shards, Recovered.start_verified _⟩
  | fetching m todo r =>
    cases todo with
    | nil =>
      simp only [syncStep]
      split
      · trivial
      · next stream hjoin =>
        rcases h with ⟨-, hzero⟩ | ⟨hrecord, -, hverified⟩
        · rw [joinRecovered, hzero, if_pos (by decide)] at hjoin
          contradiction
        · refine ⟨hrecord, ?_⟩
          rw [joinRecovered_ok hverified hrecord.sizes hjoin]
          exact (resize_half_iff _ _).mpr (hkeeps m r rfl hrecord)
    | cons ref todo =>
      rcases h with ⟨hnil, -⟩ | ⟨hrecord, hdesc, hverified⟩
      · contradiction
      · exact .inr ⟨hrecord, hdesc.tail, fetchShard_verified hH _ hdesc hverified⟩
  | rebuilt m stream =>
    obtain ⟨-, ⟨reason, hnext⟩ | hnext | ⟨hnext, -, -⟩⟩ :=
      syncStep_rebuilt (H := H) (a := a) e w h.1.plain.1 stream
    · rw [hnext]
      trivial
    · rw [hnext]
      exact h
    · rw [hnext]
      exact ⟨h.1, List.Subset.refl _⟩
  | forwarding m stream =>
    rcases syncStep_forwarding (H := H) (a := a) e w h.1.plain.1 h.1.plain.2.1 stream with
      ⟨-, ⟨reason, hnext⟩ | hnext⟩ | ⟨-, reason, hnext⟩
    · rw [hnext]
      trivial
    · rw [hnext]
      exact ⟨h.1, List.Subset.refl _⟩
    · rw [hnext]
      trivial
  | releasing m todo =>
    cases todo with
    | nil => trivial
    | cons ref todo =>
      have hid := h.1.shards.safe (h.2 List.mem_cons_self)
      rw [(syncStep_releasing (H := H) (a := a) e w m hid todo).2.2.1]
      exact ⟨h.1, fun x hx => h.2 (List.mem_cons_of_mem _ hx)⟩
  | finished result => trivial

/-- The server is changed in one way only: it stores the stream. -/
theorem syncStep_server (e : SyncEvent) (w : World) {pc : SyncPc} (h : pc.Sound H u) :
    u.fileOn a (syncStep H a e w pc).1.server = some u.stream ∨
      SameFiles w.server (syncStep H a e w pc).1.server := by
  cases pc with
  | start =>
    right
    simp only [syncStep]
    split
    · exact SameFiles.refl _
    · split <;> exact SameFiles.refl _
  | fetching m todo r =>
    right
    cases todo with
    | nil =>
      simp only [syncStep]
      split <;> exact SameFiles.refl _
    | cons ref todo => exact SameFiles.refl _
  | rebuilt m stream =>
    right
    rw [(syncStep_rebuilt (H := H) (a := a) e w h.1.plain.1 stream).1]
    exact SameFiles.refl _
  | forwarding m stream =>
    obtain ⟨hrecord, rfl⟩ := h
    obtain ⟨hname, htag, hwire⟩ := hrecord.plain
    rcases syncStep_forwarding (H := H) (a := a) e w hname htag u.stream with
      ⟨⟨final, o, hfinal, -, hserver⟩, -⟩ | ⟨hsame, -⟩
    · rw [hwire] at hfinal hserver
      rw [hserver]
      exact .inl (fileOn_run_upload hfinal)
    · exact .inr hsame
  | releasing m todo =>
    right
    cases todo with
    | nil => exact SameFiles.refl _
    | cons ref todo =>
      have hid := h.1.shards.safe (h.2 List.mem_cons_self)
      rw [(syncStep_releasing (H := H) (a := a) e w m hid todo).1]
      exact SameFiles.refl _
  | finished result => exact .inr (SameFiles.refl _)

/-- The cleanup begins with a step that stores the stream, or when the server has answered with its
tag. -/
theorem syncStep_released (e : SyncEvent) (w : World) {pc : SyncPc} (h : pc.Sound H u)
    (hbefore : pc.released = false) (hafter : (syncStep H a e w pc).2.released = true) :
    u.fileOn a (syncStep H a e w pc).1.server = some u.stream ∨
    (syncStep H a e w pc).1 = w ∧ ∃ m, RecordOf H u m ∧ pc = .rebuilt m u.stream ∧
      e.connects = true ∧ w.Tells a e.env e.link m.name m.dedupTag := by
  cases pc with
  | start =>
    simp only [syncStep] at hafter
    split at hafter
    · exact absurd hafter Bool.false_ne_true
    · split at hafter <;> exact absurd hafter Bool.false_ne_true
  | fetching m todo r =>
    cases todo with
    | nil =>
      simp only [syncStep] at hafter
      split at hafter <;> exact absurd hafter Bool.false_ne_true
    | cons ref todo => exact absurd hafter Bool.false_ne_true
  | rebuilt m stream =>
    obtain ⟨hrecord, rfl⟩ := h
    obtain ⟨hsame, ⟨reason, hnext⟩ | hnext | ⟨-, hconn, htells⟩⟩ :=
      syncStep_rebuilt (H := H) (a := a) e w hrecord.plain.1 u.stream
    · rw [hnext] at hafter
      exact absurd hafter Bool.false_ne_true
    · rw [hnext] at hafter
      exact absurd hafter Bool.false_ne_true
    · exact .inr ⟨hsame, m, hrecord, rfl, hconn, htells⟩
  | forwarding m stream =>
    obtain ⟨hrecord, rfl⟩ := h
    obtain ⟨hname, htag, hwire⟩ := hrecord.plain
    rcases syncStep_forwarding (H := H) (a := a) e w hname htag u.stream with
      ⟨⟨final, o, hfinal, -, hserver⟩, -⟩ | ⟨-, reason, hnext⟩
    · rw [hwire] at hfinal hserver
      rw [hserver]
      exact .inl (fileOn_run_upload hfinal)
    · rw [hnext] at hafter
      exact absurd hafter Bool.false_ne_true
  | releasing m todo => exact absurd hbefore.symm Bool.false_ne_true
  | finished result => exact absurd (hbefore.symm.trans hafter) Bool.false_ne_true

theorem RecordOf.shownOn {m : Manifest} (h : RecordOf H u m) {w : World} {env : SessionEnv}
    {l : Link} (htells : w.Tells a env l m.name m.dedupTag) : u.ShownOn a w.server := by
  have hshows := htells.shows h.plain.1
  rwa [h.plain.2.2, h.dedupTag] at hshows

/-- A synchronisation that meets its conditions only begins the cleanup when the server has the
content. -/
theorem syncStep_stored {κ : Type*} {content : Bytes → κ} (e : SyncEvent) (w : World) {pc : SyncPc}
    (h : pc.Sound H u) (hwell : FollowsWell H a content u (w, pc) e)
    (hbefore : pc.released = false) (hafter : (syncStep H a e w pc).2.released = true) :
    u.StoredOn content a (syncStep H a e w pc).1.server := by
  rcases syncStep_released (a := a) e w h hbefore hafter with
    hstored | ⟨hsame, m, hrecord, rfl, hconn, htells⟩
  · exact SealedUpload.storedOn_of_fileOn hstored
  · rw [hsame]
    exact hwell hrecord hconn htells

theorem syncStep_cleanup (e : SyncEvent) (w : World) {pc : SyncPc} (h : pc.Sound H u)
    (hpc : pc.released = true) : (syncStep H a e w pc).2.released = true ∧
      (syncStep H a e w pc).1.server = w.server ∧ pc.Safe := by
  cases pc with
  | releasing m todo =>
    have hsafe : ∀ ref ∈ todo, isSafeChunkId ref.chunkId = true :=
      fun ref href => h.1.shards.safe (h.2 href)
    cases todo with
    | nil => exact ⟨rfl, rfl, hsafe⟩
    | cons ref todo =>
      obtain ⟨hserver, -, hnext, -⟩ := syncStep_releasing (H := H) (a := a) e w m
        (hsafe ref List.mem_cons_self) todo
      rw [hnext]
      exact ⟨rfl, hserver, hsafe⟩
  | finished result => exact ⟨hpc, rfl, trivial⟩
  | start | fetching | rebuilt | forwarding => exact absurd hpc Bool.false_ne_true

theorem syncStep_delivering (hH : ∀ i, H.CollisionFree (u.shard i)) {w0 : World}
    (hrecord : ∀ t, w0.pending = some t → PartOfRecord H u route t) {x : World × SyncPc}
    (h : Delivering H a u w0 x) {e : SyncEvent}
    (hkeeps : ∀ m r, x.2 = .fetching m [] r → RecordOf H u m → e.join.Keeps u.stream) :
    Delivering H a u w0 (syncStep H a e x.1 x.2) := by
  have hpart : ∀ t, x.1.pending = some t → PartOfRecord H u route t := by
    intro t ht
    rcases h.pending with hsame | hnone
    · exact hrecord t (hsame.symm.trans ht)
    · rw [hnone] at ht
      contradiction
  have hread : ∀ t m, x.1.pending.bind e.manifest.of = some t → Manifest.read t = .ok m →
      m.shards = [] ∨ RecordOf H u m := by
    intro t m ht hm
    obtain ⟨whole, hwhole, hof⟩ := Option.bind_eq_some_iff.mp ht
    exact ((hpart whole hwhole).of hof).read hm
  have hsound := syncStep_sound (a := a) hH e (fun _ => hread) h.sound hkeeps
  have hserver : u.fileOn a (syncStep H a e x.1 x.2).1.server = some u.stream ∨
      SameFiles w0.server (syncStep H a e x.1 x.2).1.server := by
    rcases syncStep_server (a := a) e x.1 h.sound with hstored | hsame
    · exact .inl hstored
    · exact h.server.imp (hsame.fileOn.trans ·) (·.trans hsame)
  by_cases hpc : x.2.released = true
  · obtain ⟨hnext, hsame, hsafe⟩ := syncStep_cleanup (a := a) e x.1 h.sound hpc
    obtain ⟨hpending, -⟩ := syncStep_only_removes (H := H) (a := a) e x.1 hsafe
    refine ⟨hsound, hserver, ?_, fun hnot => absurd (hnot.symm.trans hnext) Bool.false_ne_true,
      fun _ => ?_⟩
    · rcases hpending with hpending | hnone
      · rw [hpending]
        exact h.pending
      · exact .inr hnone
    · rw [hsame]
      exact h.delivered hpc
  · rw [Bool.not_eq_true] at hpc
    obtain ⟨hpending, hchunk⟩ := h.kept hpc
    have hnot : ∀ m todo, x.2 ≠ .releasing m todo := by
      rintro m todo heq
      rw [heq] at hpc
      exact absurd hpc.symm Bool.false_ne_true
    obtain ⟨hpending', hchunk'⟩ := syncStep_before_release (H := H) (a := a) e x.1 hnot
    refine ⟨hsound, hserver, .inl (hpending'.trans hpending), fun _ =>
      ⟨hpending'.trans hpending, fun p id => (hchunk' p id).trans (hchunk p id)⟩, ?_⟩
    intro hafter
    rcases syncStep_released (a := a) e x.1 h.sound hpc hafter with
      hstored | ⟨hsame, m, hrecord, -, -, htells⟩
    · exact .inl hstored
    · rw [hsame]
      exact h.server.imp_right fun hold => ⟨hold.shownOn.mp (hrecord.shownOn htells), hold⟩

theorem delivering_start (w : World) : Delivering H a u w (w, .start) where
  sound := trivial
  server := .inr (SameFiles.refl _)
  pending := .inl rfl
  kept _ := ⟨rfl, fun _ _ => rfl⟩
  delivered h := absurd h Bool.false_ne_true

/-- Throughout a synchronisation nothing is lost: neither the record nor a chunk before the server
holds the file. -/
theorem syncRun_delivering (hH : ∀ i, H.CollisionFree (u.shard i)) {w : World}
    (hrecord : ∀ t, w.pending = some t → PartOfRecord H u route t) {es : List SyncEvent}
    (hkeeps : Machine.Along (fun x e => syncStep H a e x.1 x.2) (KeepsAtJoin u) (w, .start) es) :
    Delivering H a u w (syncRun H a w es) :=
  Machine.inv_run (fun _ _ hx hC => syncStep_delivering hH hrecord hx fun m r hpc _ => hC m r hpc)
    (delivering_start w) hkeeps

/-- The same when only followed records are asked about; and then the server has the content as soon
as the cleanup begins. -/
theorem syncRun_stored {κ : Type*} {content : Bytes → κ} (hH : ∀ i, H.CollisionFree (u.shard i))
    {w : World} (hrecord : ∀ t, w.pending = some t → PartOfRecord H u route t)
    {es : List SyncEvent} (hwell : Machine.Along (fun x e => syncStep H a e x.1 x.2)
      (FollowsWell H a content u) (w, .start) es) :
    Delivering H a u w (syncRun H a w es) ∧ ((syncRun H a w es).2.released = true →
      u.StoredOn content a (syncRun H a w es).1.server) := by
  refine Machine.inv_run (I := fun x => Delivering H a u w x ∧
    (x.2.released = true → u.StoredOn content a x.1.server)) ?_
    ⟨delivering_start w, fun h => absurd h Bool.false_ne_true⟩ hwell
  rintro ⟨w', pc⟩ e ⟨hx, hstored⟩ hC
  refine ⟨syncStep_delivering hH hrecord hx fun m r => hC.keeps, fun hafter => ?_⟩
  by_cases hpc : pc.released = true
  · rw [(syncStep_cleanup (a := a) e w' hx.sound hpc).2.1]
    exact hstored hpc
  · exact syncStep_stored e w' hx.sound hC (by simpa using hpc) hafter

theorem partOfRecord_of_distRun {w0 w : World} {es0 : List DistEvent} {placed : List Shard}
    (hH : ∀ i, H.CollisionFree (u.shard i))
    (hdist : distRun H u route w0 es0 = (w, .finished 0 placed)) :
    w.pending = some (manifestOf H u route placed).text ∧ Placed H u route w placed ∧
      ∀ t, w.pending = some t → PartOfRecord H u route t := by
  have hrecorded := distRun_recorded H u route w0 es0
  obtain ⟨-, hwell, hplaced⟩ := distRun_placed route hH w0 es0
  rw [hdist] at hrecorded hwell hplaced
  refine ⟨hrecorded, hplaced, fun t ht => ?_⟩
  refine ⟨placed, hwell.1.nodup (by decide), (manifestOf H u route placed).text.length, ?_⟩
  rw [List.take_length]
  exact Option.some.inj (ht.symm.trans hrecorded)

/-- As long as the zeros of the trim make up for whatever the final close of a rebuilt stream
loses, the cleanup only begins when the server has the file, and until then the record and all
shards stay. With another close the stream that would be delivered is not the right one. -/
theorem release_after_delivery (hH : ∀ i, H.CollisionFree (u.shard i)) {w0 w : World}
    {es0 : List DistEvent} {placed : List Shard}
    (hdist : distRun H u route w0 es0 = (w, .finished 0 placed)) {es : List SyncEvent}
    (hkeeps : Machine.Along (fun x e => syncStep H a e x.1 x.2) (KeepsAtJoin u) (w, .start) es) :
    ((syncRun H a w es).2.released = true →
      Delivered a u w.server (syncRun H a w es).1.server) ∧
    ((syncRun H a w es).2.released = false →
      (syncRun H a w es).1.pending = some (manifestOf H u route placed).text ∧
      Placed H u route (syncRun H a w es).1 placed) ∧
    ∀ m r J c, (syncRun H a w es).2 = .fetching m [] r → joinRecovered J m r = .ok c →
      (c = u.stream ↔ J.Keeps u.stream) := by
  obtain ⟨hpending, hplaced, hpart⟩ := partOfRecord_of_distRun hH hdist
  have h := syncRun_delivering hH hpart hkeeps
  refine ⟨h.delivered, fun hnot => ?_, fun m r J c hpc hjoin => ?_⟩
  · obtain ⟨hsame, hchunks⟩ := h.kept hnot
    exact ⟨hsame.trans hpending, fun i hi => by rw [hchunks]; exact hplaced i hi⟩
  · have hsound := h.sound
    rw [hpc] at hsound
    rcases hsound with ⟨-, hzero⟩ | ⟨hrecord, -, hverified⟩
    · rw [joinRecovered, hzero, if_pos (by decide)] at hjoin
      contradiction
    · rw [joinRecovered_ok hverified hrecord.sizes hjoin]
      exact resize_half_iff _ _

end Delivery

def sampleAccount : Account := ⟨ascii "ann", by decide⟩

def otherUpload : SealedUpload where
  name := ascii "a"
  stream := [9, 9]
  tag := List.replicate 64 98
  name_safe := sampleUpload.name_safe
  tag_hex := .inr (by decide)
  stream_lt := by decide

def samplePending : World :=
  (distRun sampleHash sampleUpload sampleRoute World.empty (List.replicate 7 sampleDist)).1

theorem samplePending_eq : distRun sampleHash sampleUpload sampleRoute World.empty
    (List.replicate 7 sampleDist) = (samplePending, .finished 0 [.d0, .d1, .p0, .p1]) := by
  have hpc : (distRun sampleHash sampleUpload sampleRoute World.empty
      (List.replicate 7 sampleDist)).2 = .finished 0 [.d0, .d1, .p0, .p1] := by decide +kernel
  rw [samplePending]
  generalize distRun sampleHash sampleUpload sampleRoute World.empty
    (List.replicate 7 sampleDist) = x at hpc ⊢
  rw [← hpc]

def sampleSync (J : JoinStorage) : SyncEvent :=
  ⟨.done, ⟨false, [], .done, .done⟩, J, true, calmEnv, ⟨1000, true⟩, true⟩

def sampleFetch (J : JoinStorage) (shard : Bytes) : SyncEvent :=
  { sampleSync J with fetch := ⟨true, sendLine (ascii "DATA 2") ++ shard, .done, .done⟩ }

def sampleSyncs (J : JoinStorage) : List SyncEvent :=
  sampleSync J :: sampleFetch J [1, 2] :: sampleFetch J [3, 0] ::
    List.replicate 10 (sampleSync J)

theorem release_after_delivery_buffered :
    Delivered sampleAccount sampleUpload samplePending.server
      (syncRun sampleHash sampleAccount samplePending (sampleSyncs .buffered)).1.server := by
  have hreleased : (syncRun sampleHash sampleAccount samplePending
      (sampleSyncs .buffered)).2.released = true := by decide +kernel
  have hkeeps : Machine.Along (fun x e => syncStep sampleHash sampleAccount e x.1 x.2)
      (KeepsAtJoin sampleUpload) (samplePending, .start) (sampleSyncs .buffered) := by
    apply Machine.along_of_forall
    intro e he x m r _
    have hjoin : e.join = .buffered := by
      simp only [sampleSyncs, List.mem_cons, List.mem_replicate] at he
      rcases he with rfl | rfl | rfl | ⟨-, rfl⟩ <;> rfl
    rw [hjoin]
    exact JoinStorage.keeps_of_closing rfl _
  exact (release_after_delivery sampleHash_collisionFree samplePending_eq hkeeps).1 hreleased

def JoinStorage.lateFailure : JoinStorage := { JoinStorage.buffered with closing := .fail 0 }

/-- A failing close goes unnoticed, and zeros are delivered in place of the second half; the shards
and the record are gone. -/
theorem zeros_delivered :
    (syncRun sampleHash sampleAccount samplePending (sampleSyncs .lateFailure)).2.released = true ∧
    sampleUpload.fileOn sampleAccount (syncRun sampleHash sampleAccount samplePending
      (sampleSyncs .lateFailure)).1.server = some [1, 2, 0] ∧
    (syncRun sampleHash sampleAccount samplePending (sampleSyncs .lateFailure)).1.pending = none ∧
    ¬ Delivered sampleAccount sampleUpload samplePending.server (syncRun sampleHash sampleAccount
      samplePending (sampleSyncs .lateFailure)).1.server := by
  obtain ⟨hreleased, hfile, hpending⟩ :
      (syncRun sampleHash sampleAccount samplePending (sampleSyncs .lateFailure)).2.released =
        true ∧
      sampleUpload.fileOn sampleAccount (syncRun sampleHash sampleAccount samplePending
        (sampleSyncs .lateFailure)).1.server = some [1, 2, 0] ∧
      (syncRun sampleHash sampleAccount samplePending (sampleSyncs .lateFailure)).1.pending =
        none := by decide +kernel
  refine ⟨hreleased, hfile, hpending, ?_⟩
  rintro (hstored | ⟨⟨-, size, shown, hinfo, -⟩, -⟩)
  · rw [hfile] at hstored
    exact absurd (Option.some.inj hstored) (by decide)
  · have hnone : fileInfo samplePending.server sampleAccount.user (wireName sampleUpload.name) =
        none := by decide +kernel
    exact absurd (hnone.symm.trans hinfo) (Option.some_ne_none _).symm

end PersonalCloud
