import PersonalCloud.Client.Sync

/-! A synchronisation that was interrupted, and a later one of the same record against a server and
peers that are all reachable and honest. -/
namespace PersonalCloud

open Proto Channel Remote Store Session

def honestFetch (w : World) (env : SessionEnv) (ref : ShardRef) : Fetch :=
  ⟨true, (handle { env with disk := w.peers ref.peer } ⟨[], false, true⟩
    (getChunkLine ref.chunkId) []).reply, .done, .done⟩

def SyncPc.request : SyncPc → Bytes × Bytes
  | .rebuilt m _ => (statLine m.name, [])
  | .forwarding m stream => (putFileLine m.name m.dedupTag stream.length, stream)
  | .releasing _ (ref :: _) => (delChunkLine ref.chunkId, [])
  | _ => ([], [])

/-- A step in which everyone is reachable and honest and nothing fails. -/
structure Honest (x : World × SyncPc) (e : SyncEvent) : Prop where
  manifest : e.manifest = .done
  fetch : ∀ m ref todo r, x.2 = .fetching m (ref :: todo) r → e.fetch = honestFetch x.1 e.env ref
  join : e.join.Sound
  connects : e.connects = true
  env : e.env.Sound
  link : e.link.Whole x.2.request.1 x.2.request.2
  removes : e.removes = true

/-- The server's answer about the name is read as the tag of the upload. -/
def SealedUpload.ToldBy (u : SealedUpload) (a : Account) (d : Disk) : Prop :=
  ∃ size shown, fileInfo d a.user (wireName u.name) = some (size, shown) ∧
    alreadyThere u.tag (statReply ((readLine (sendLine
      (sp kMeta (sp (Decimal.text size) (wireTag shown))))).map Prod.fst)) = true

def present (H : Sha256) (u : SealedUpload) (route : Route) (w : World) (i : Shard) : Bool :=
  (w.chunk (route.peers i).bytes (chunkId H u i)).isSome

/-- The record can be read, two of its shards are left, and the server accepts a stream of that size
or has the content already. -/
def Finishable (H : Sha256) (a : Account) (u : SealedUpload) (route : Route) (placed : List Shard)
    (w : World) : Prop :=
  isSafeName (wireName u.name) = true ∧
  Config.kDataShards ≤ placed.countP (present H u route w) ∧
  (u.stream.length ≤ Config.kMaxTransferSize.toNat ∨ u.ToldBy a w.server)

section Resume

variable {H : Sha256} {a : Account} {u : SealedUpload} {route : Route} {placed : List Shard}
  {w1 : World}

def recordRead (H : Sha256) (u : SealedUpload) (route : Route) (placed : List Shard) : Manifest :=
  { manifestOf H u route placed with name := wireName u.name }

theorem recordOf_recordRead (hnodup : placed.Nodup) :
    RecordOf H u (recordRead H u route placed) := by
  have hsizes : RecordsSizes u (manifestOf H u route placed) := recordsSizes_manifestOf placed
  exact ⟨rfl, ⟨hsizes.streamSize, hsizes.shardSize⟩, rfl, describes_manifestOf hnodup⟩

theorem readLine_none : readLine (sendLine kNone) = some (kNone, []) := by decide

theorem statLine_length_le {name : Bytes} (h : name.length ≤ 255) :
    (statLine name).length ≤ Config.kMaxLineLen := by
  have hcmd : kStat.length + (255 + 1) ≤ Config.kMaxLineLen := by decide
  simp only [statLine, sp, List.length_append, List.length_cons]
  omega

theorem putFileLine_length_le {name tag : Bytes} {size : ℕ} (hname : name.length ≤ 255)
    (htag : tag.length ≤ 64) (hsize : size < 2 ^ 63) :
    (putFileLine name tag size).length ≤ Config.kMaxLineLen := by
  have hcmd : kPutFile.length + (20 + (64 + (255 + 3))) ≤ Config.kMaxLineLen := by decide
  have hdigits : (Decimal.text size).length ≤ 20 := Decimal.text_length_le (by omega) (by omega)
  have hwire : (wireTag tag).length ≤ 64 := by
    unfold wireTag
    split_ifs
    · decide
    · exact htag
  simp only [putFileLine, sp, List.length_append, List.length_cons]
  omega

theorem SealedUpload.tag_length_le (u : SealedUpload) : u.tag.length ≤ 64 := by
  rcases u.tag_hex with htag | htag
  · simp [htag]
  · unfold isSafeChunkId at htag
    exact (of_decide_eq_true htag).1.le

theorem length_wireName_le (u : SealedUpload) : (wireName u.name).length ≤ 255 := by
  have hname : u.name.length ≤ 255 := by
    have hsafe := u.name_safe
    unfold isSafeName at hsafe
    split_ifs at hsafe with hlen
    push Not at hlen
    exact hlen.2
  exact (List.dropWhile_sublist _).length_le.trans hname

theorem honestFetch_returns {w : World} {env : SessionEnv} {ref : ShardRef} {c : Bytes}
    (henv : env.Sound) (hid : isSafeChunkId ref.chunkId = true)
    (hc : w.chunk ref.peer ref.chunkId = some c) : (honestFetch w env ref).Returns c := by
  have hdisk : (w.peers ref.peer).content [kChunksDir, ref.chunkId] = some c := hc
  refine ⟨rfl, ⟨[], ?_⟩, rfl, rfl⟩
  simp only [honestFetch, handle_getChunkLine hid, hdisk, sendFile, henv.reads]
  simp

theorem fetchShard_absent {w : World} (env : SessionEnv) {ref : ShardRef} {i : Shard}
    (hindex : ref.index = i.index) (hid : isSafeChunkId ref.chunkId = true)
    (hc : w.chunk ref.peer ref.chunkId = none) (r : Recovered) :
    fetchShard H (honestFetch w env ref) ref r = r := by
  have hdisk : (w.peers ref.peer).content [kChunksDir, ref.chunkId] = none := hc
  have hreply : getChunkReply (some kNone) = .ok none := by decide
  simp [fetchShard, hindex, ofIndex_index, honestFetch, handle_getChunkLine hid, hdisk, answer,
    getChunk, readLine_none, hreply]

/-- What an interrupted synchronisation leaves behind. -/
structure Interrupted (H : Sha256) (u : SealedUpload) (route : Route) (placed : List Shard)
    (w : World) : Prop where
  pending : w.pending = some (manifestOf H u route placed).text
  nodup : placed.Nodup
  chunks : ∀ i ∈ placed, w.chunk (route.peers i).bytes (chunkId H u i) = some (u.shard i) ∨
    w.chunk (route.peers i).bytes (chunkId H u i) = none
  length_le : ∀ i ∈ placed, (u.shard i).length ≤ Config.kMaxTransferSize.toNat

theorem syncStep_start_honest {w : World} {e : SyncEvent} (he : e.manifest = .done)
    (hw : w.pending = some (manifestOf H u route placed).text) :
    syncStep H a e w .start = if isSafeName (wireName u.name) then
      (w, .fetching (recordRead H u route placed) (recordRead H u route placed).shards .start)
    else (w, .finished (.error "manifest has no usable file name")) := by
  have hread : Manifest.read (manifestOf H u route placed).text =
      if isSafeName (wireName u.name) then .ok (recordRead H u route placed)
      else .error "manifest has no usable file name" :=
    Manifest.read_text (writable_manifestOf placed)
  simp only [syncStep, hw, he, Option.bind_some, FileRead.of, hread]
  split_ifs
  · rfl
  · rfl

/-- A shard that is still present is fetched and kept, and only that. -/
theorem fetchShard_honest (h : Interrupted H u route placed w1) {env : SessionEnv}
    (henv : env.Sound) {i : Shard} (hi : i ∈ placed) (r : Recovered) :
    fetchShard H (honestFetch w1 env (shardRef H u route i)) (shardRef H u route i) r =
      if present H u route w1 i then ⟨Function.update r.holders i (some (u.shard i)),
        Function.update r.usable i true, r.recovered + 1⟩
      else r := by
  have hid : isSafeChunkId (shardRef H u route i).chunkId = true := isSafeChunkId_chunkId i
  unfold present
  rcases h.chunks i hi with hchunk | hchunk
  · rw [hchunk, Option.isSome_some, if_pos rfl]
    exact fetchShard_returned (honestFetch_returns henv hid hchunk) (h.length_le i hi) rfl rfl r
  · rw [hchunk, Option.isSome_none, if_neg Bool.false_ne_true]
    exact fetchShard_absent env rfl hid hchunk r

theorem exists_two_of_countP {p : Shard → Bool} {is : List Shard} (hnodup : is.Nodup)
    (h : 2 ≤ is.countP p) : ∃ i ∈ is, ∃ j ∈ is, i ≠ j ∧ p i = true ∧ p j = true := by
  rw [List.countP_eq_length_filter] at h
  obtain ⟨i, j, hij⟩ : ∃ i j, [i, j].Sublist (is.filter p) := by
    match hf : is.filter p with
    | [] => simp [hf] at h
    | [_] => simp [hf] at h
    | i :: j :: rest => exact ⟨i, j, by simp⟩
  have hi := List.mem_filter.mp (hij.subset (by simp : i ∈ [i, j]))
  have hj := List.mem_filter.mp (hij.subset (by simp : j ∈ [i, j]))
  have hne : i ≠ j := by simpa using hij.nodup (hnodup.filter p)
  exact ⟨i, hi.1, j, hj.1, hne, hi.2, hj.2⟩

/-- The server is asked about the name, and the stream is forwarded unless it tells the tag. -/
theorem syncStep_rebuilt_honest {w : World} {m : Manifest} (stream : Bytes) {e : SyncEvent}
    (hm : m.name = wireName u.name ∧ m.dedupTag = u.tag) (hsafe : isSafeName (wireName u.name) = true)
    (hconn : e.connects = true) (hl : e.link.Whole (statLine m.name) []) :
    (u.ToldBy a w.server ∧ syncStep H a e w (.rebuilt m stream) = (w, .releasing m m.shards)) ∨
    (¬ u.ToldBy a w.server ∧ syncStep H a e w (.rebuilt m stream) = (w, .forwarding m stream)) := by
  obtain ⟨hname, htag⟩ := hm
  have hne : wireName m.name ≠ [] := by
    rw [hname, wireName_wireName]
    rintro hnil
    rw [hnil] at hsafe
    exact absurd hsafe (by decide)
  have hplain : IsPlain m.name := hname ▸ isPlain_wireName (isPlain_of_isSafeName u.name_safe)
  have hlen : (statLine m.name).length ≤ Config.kMaxLineLen :=
    statLine_length_le (hname ▸ length_wireName_le u)
  have hsame := w.askServer_stat e.env e.link a hplain
  have hreply : (w.askServer a e.env e.link (statLine m.name) []).2 =
      (readLine (doStat { e.env with disk := w.server } ⟨a.user, true, false⟩ (statLine m.name)
        []).reply).map Prod.fst := by
    rw [World.askServer, exchange_whole (isPlain_statLine hplain) hlen hl]
    simp only [statLine, handle_stat]
    rfl
  have htold : alreadyThere m.dedupTag (statReply
      (w.askServer a e.env e.link (statLine m.name) []).2) = true ↔ u.ToldBy a w.server := by
    rw [hreply, doStat_statLine hne, hname, wireName_wireName, htag]
    unfold SealedUpload.ToldBy
    cases hinfo : fileInfo w.server a.user (wireName u.name) with
    | none =>
      have hnone : statReply (some kNone) = .ok none := by decide
      simp [answer, readLine_none, hnone, alreadyThere]
    | some info =>
      obtain ⟨size, shown⟩ := info
      simp [answer]
  have hconn' : ¬ e.connects = false := by simp [hconn]
  by_cases htold' : u.ToldBy a w.server
  · refine .inl ⟨htold', ?_⟩
    simp only [syncStep]
    rw [if_neg hconn', if_pos (htold.mpr htold'), hsame]
  · refine .inr ⟨htold', ?_⟩
    simp only [syncStep]
    rw [if_neg hconn', if_neg (mt htold.mp htold'), hsame]

/-- A stream that has to be forwarded is accepted exactly if it is not too large. -/
theorem syncStep_forwarding_honest {w : World} {m : Manifest} {e : SyncEvent}
    (hm : m.name = wireName u.name ∧ m.dedupTag = u.tag) (hsafe : isSafeName (wireName u.name) = true)
    (henv : e.env.Sound)
    (hl : e.link.Whole (putFileLine m.name m.dedupTag u.stream.length) u.stream) :
    if u.stream.length ≤ Config.kMaxTransferSize.toNat then
      (syncStep H a e w (.forwarding m u.stream)).2 = .releasing m m.shards
    else ∃ reason, (syncStep H a e w (.forwarding m u.stream)).2 = .finished (.error reason) := by
  obtain ⟨hname, htag⟩ := hm
  have hplain : IsPlain m.name := hname ▸ isPlain_wireName (isPlain_of_isSafeName u.name_safe)
  have htag' : IsTag m.dedupTag := htag ▸ u.isTag_tag
  have hlen : (putFileLine m.name m.dedupTag u.stream.length).length ≤ Config.kMaxLineLen :=
    putFileLine_length_le (hname ▸ length_wireName_le u) (htag ▸ u.tag_length_le) u.stream_lt
  have hfinal : filePath a.user (wireName m.name) =
      some [kUsersDir, a.user, kFilesDir, wireName u.name] := by
    rw [hname, wireName_wireName]
    exact filePath_eq_some.mpr ⟨a.isValid, hsafe, rfl⟩
  have henv' : SessionEnv.Sound { e.env with disk := w.server } :=
    ⟨henv.ensures, henv.receives, henv.reads, henv.renames, henv.tag, henv.removesFile,
      henv.removesSidecar⟩
  have hreply : putFileReply (w.askServer a e.env e.link
      (putFileLine m.name m.dedupTag u.stream.length) u.stream).2 = .ok () ↔
        u.stream.length ≤ Config.kMaxTransferSize.toNat :=
    putFileReply_whole henv' hplain htag' rfl hfinal hlen hl
  by_cases hsize : u.stream.length ≤ Config.kMaxTransferSize.toNat
  · rw [if_pos hsize]
    simp only [syncStep, hreply.mpr hsize]
  · rw [if_neg hsize]
    simp only [syncStep]
    split
    · next reason _ => exact ⟨reason, rfl⟩
    · next hok => exact absurd (hreply.mp hok) hsize

/-- What such a synchronisation holds, once it has found the world `w1`. -/
def Resuming (H : Sha256) (a : Account) (u : SealedUpload) (route : Route) (placed : List Shard)
    (w1 : World) (x : World × SyncPc) : Prop :=
  match x.2 with
  | .start => x.1 = w1
  | .fetching m todo r => x.1 = w1 ∧ m = recordRead H u route placed ∧
      isSafeName (wireName u.name) = true ∧ ∃ fetched rest, placed = fetched ++ rest ∧
        todo = rest.map (shardRef H u route) ∧ r.Verified u todo ∧
        r.recovered = fetched.countP (present H u route w1) ∧
        ∀ i ∈ fetched, present H u route w1 i = true → r.files i = some (u.shard i)
  | .rebuilt m stream => x.1 = w1 ∧ m = recordRead H u route placed ∧ stream = u.stream ∧
      isSafeName (wireName u.name) = true ∧
      Config.kDataShards ≤ placed.countP (present H u route w1)
  | .forwarding m stream => x.1 = w1 ∧ m = recordRead H u route placed ∧ stream = u.stream ∧
      isSafeName (wireName u.name) = true ∧
      Config.kDataShards ≤ placed.countP (present H u route w1) ∧ ¬ u.ToldBy a w1.server
  | .releasing m todo => m = recordRead H u route placed ∧ todo ⊆ m.shards ∧
      Finishable H a u route placed w1
  | .finished (.ok _) => x.1.pending = none ∧ Finishable H a u route placed w1
  | .finished (.error _) => ¬ Finishable H a u route placed w1

def stepsLeft (placed : List Shard) : SyncPc → ℕ
  | .start => 2 * placed.length + 5
  | .fetching m todo _ => todo.length + m.shards.length + 4
  | .rebuilt m _ => m.shards.length + 3
  | .forwarding m _ => m.shards.length + 2
  | .releasing _ todo => todo.length + 1
  | .finished _ => 0

theorem resuming_fetched (hH : ∀ i, H.CollisionFree (u.shard i))
    (hw : Interrupted H u route placed w1) {m : Manifest} {ref : ShardRef} {todo : List ShardRef}
    {r : Recovered} (h : Resuming H a u route placed w1 (w1, .fetching m (ref :: todo) r))
    {env : SessionEnv} (henv : env.Sound) :
    Resuming H a u route placed w1
      (w1, .fetching m todo (fetchShard H (honestFetch w1 env ref) ref r)) := by
  obtain ⟨-, hm, hsafe, fetched, rest, hplaced, htodo, hverified, hcount, hfiles⟩ := h
  obtain ⟨i, rest, rfl, rfl, rfl⟩ := List.map_eq_cons_iff.mp htodo.symm
  have hi : i ∈ placed := by simp [hplaced]
  have hnodup : (i :: rest).Nodup := (List.nodup_append.mp (hplaced ▸ hw.nodup)).2.1
  have hdesc : Describes H u ((i :: rest).map (shardRef H u route)) :=
    @describes_manifestOf H u route _ hnodup
  have hnext := fetchShard_verified hH (honestFetch w1 env (shardRef H u route i)) hdesc hverified
  have hstep := fetchShard_honest hw henv hi r
  refine ⟨rfl, hm, hsafe, fetched ++ [i], rest, by simp [hplaced], rfl, hnext, ?_, ?_⟩
  · rw [hstep, List.countP_append, List.countP_singleton, ← hcount]
    split_ifs
    · rfl
    · rfl
  · intro j hj hpresent
    rw [hstep]
    by_cases hij : j = i
    · rw [hij] at hpresent ⊢
      rw [if_pos hpresent]
      simp [Recovered.files]
    · have hold : j ∈ fetched := by simpa [hij] using hj
      rw [← hfiles j hold hpresent]
      split_ifs
      · simp [Recovered.files, Function.update_of_ne hij]
      · rfl

theorem resuming_joined (hw : Interrupted H u route placed w1) {m : Manifest} {r : Recovered}
    (h : Resuming H a u route placed w1 (w1, .fetching m [] r)) {J : JoinStorage} (hJ : J.Sound) :
    (joinRecovered J m r = .ok u.stream ∧
      Config.kDataShards ≤ placed.countP (present H u route w1)) ∨
    ((∃ reason, joinRecovered J m r = .error reason) ∧ ¬ Finishable H a u route placed w1) := by
  obtain ⟨-, rfl, hsafe, fetched, rest, hplaced, htodo, hverified, hcount, hfiles⟩ := h
  have hrest : rest = [] := List.map_eq_nil_iff.mp htodo.symm
  rw [hrest, List.append_nil] at hplaced
  subst hplaced
  by_cases henough : Config.kDataShards ≤ placed.countP (present H u route w1)
  · obtain ⟨i, hi, j, hj, hne, hpi, hpj⟩ := exists_two_of_countP hw.nodup henough
    exact .inl ⟨joinRecovered_available hverified (recordOf_recordRead hw.nodup).sizes hJ hne
      (hfiles i hi hpi) (hfiles j hj hpj), henough⟩
  · refine .inr ⟨?_, fun h => henough h.2.1⟩
    rw [joinRecovered, if_pos (by rw [hcount]; exact not_le.mp henough)]
    exact ⟨_, rfl⟩

/-- Each step brings such a synchronisation nearer to its end, and at the end it has succeeded if it
could. -/
theorem syncStep_resuming (hH : ∀ i, H.CollisionFree (u.shard i))
    (hw : Interrupted H u route placed w1) {x : World × SyncPc}
    (hx : Resuming H a u route placed w1 x) {e : SyncEvent} (he : Honest x e) :
    Resuming H a u route placed w1 (syncStep H a e x.1 x.2) ∧
      stepsLeft placed (syncStep H a e x.1 x.2).2 ≤ stepsLeft placed x.2 - 1 := by
  obtain ⟨w, pc⟩ := x
  have hlength : (recordRead H u route placed).shards.length = placed.length :=
    List.length_map _
  have hnames : (recordRead H u route placed).name = wireName u.name ∧
      (recordRead H u route placed).dedupTag = u.tag := ⟨rfl, rfl⟩
  cases pc with
  | start =>
    obtain rfl : w = w1 := hx
    rw [syncStep_start_honest he.manifest hw.pending]
    split_ifs with hsafe
    · refine ⟨⟨rfl, rfl, hsafe, [], placed, rfl, rfl, Recovered.start_verified _, rfl, ?_⟩, ?_⟩
      · simp
      · simp only [stepsLeft, hlength]
        omega
    · exact ⟨fun h => hsafe h.1, Nat.zero_le _⟩
  | fetching m todo r =>
    obtain rfl : w = w1 := hx.1
    obtain rfl : m = recordRead H u route placed := hx.2.1
    cases todo with
    | nil =>
      rcases resuming_joined hw hx he.join with ⟨hjoin, henough⟩ | ⟨⟨reason, hjoin⟩, hnot⟩
      · simp only [syncStep, hjoin]
        exact ⟨⟨rfl, rfl, rfl, hx.2.2.1, henough⟩, by simp [stepsLeft]⟩
      · simp only [syncStep, hjoin]
        exact ⟨hnot, Nat.zero_le _⟩
    | cons ref todo =>
      have hfetch : e.fetch = honestFetch w e.env ref := he.fetch _ ref todo r rfl
      simp only [syncStep, hfetch]
      refine ⟨resuming_fetched hH hw hx he.env, ?_⟩
      simp only [stepsLeft, List.length_cons]
      omega
  | rebuilt m stream =>
    obtain ⟨rfl, rfl, rfl, hsafe, henough⟩ := hx
    rcases syncStep_rebuilt_honest u.stream hnames hsafe he.connects he.link with
      ⟨htold, hstep⟩ | ⟨hnot, hstep⟩
    · rw [hstep]
      exact ⟨⟨rfl, List.Subset.refl _, hsafe, henough, .inr htold⟩, by simp [stepsLeft]⟩
    · rw [hstep]
      exact ⟨⟨rfl, rfl, rfl, hsafe, henough, hnot⟩, by simp [stepsLeft]⟩
  | forwarding m stream =>
    obtain ⟨rfl, rfl, rfl, hsafe, henough, hnot⟩ := hx
    have hstep := syncStep_forwarding_honest (H := H) (a := a) (w := w) hnames hsafe he.env he.link
    generalize syncStep H a e w (.forwarding (recordRead H u route placed) u.stream) = y at hstep ⊢
    obtain ⟨w', pc'⟩ := y
    split_ifs at hstep with hsize
    · obtain rfl : pc' = _ := hstep
      exact ⟨⟨rfl, List.Subset.refl _, hsafe, henough, .inl hsize⟩, by simp [stepsLeft]⟩
    · obtain ⟨reason, rfl : pc' = _⟩ := hstep
      exact ⟨fun h => h.2.2.elim hsize hnot, Nat.zero_le _⟩
  | releasing m todo =>
    obtain ⟨rfl, hsub, hfinish⟩ := hx
    cases todo with
    | nil =>
      simp only [syncStep, he.removes]
      exact ⟨⟨rfl, hfinish⟩, Nat.zero_le _⟩
    | cons ref todo =>
      have hrecord : RecordOf H u (recordRead H u route placed) := recordOf_recordRead hw.nodup
      have hid := hrecord.shards.safe (hsub List.mem_cons_self)
      have hnext := (syncStep_releasing (H := H) (a := a) e w (recordRead H u route placed) hid
        todo).2.2.1
      generalize syncStep H a e w (.releasing (recordRead H u route placed) (ref :: todo)) = y
        at hnext ⊢
      obtain ⟨w', pc'⟩ := y
      obtain rfl : pc' = _ := hnext
      exact ⟨⟨rfl, fun y hy => hsub (List.mem_cons_of_mem _ hy), hfinish⟩, by simp [stepsLeft]⟩
  | finished result => exact ⟨hx, Nat.zero_le _⟩

theorem syncRun_honest (hH : ∀ i, H.CollisionFree (u.shard i))
    (hw : Interrupted H u route placed w1) {es : List SyncEvent}
    (hes : Machine.Along (fun x e => syncStep H a e x.1 x.2) Honest (w1, .start) es)
    (hlen : 2 * placed.length + 5 ≤ es.length) :
    ((syncRun H a w1 es).2 = .finished (.ok ()) ∧ (syncRun H a w1 es).1.pending = none ∧
      Finishable H a u route placed w1) ∨
    (∃ reason, (syncRun H a w1 es).2 = .finished (.error reason)) ∧
      ¬ Finishable H a u route placed w1 := by
  have hstart : Resuming H a u route placed w1 (w1, .start) := rfl
  have hrun : Resuming H a u route placed w1 (syncRun H a w1 es) :=
    Machine.inv_run (fun _ _ hx he => (syncStep_resuming hH hw hx he).1) hstart hes
  have hdone : stepsLeft placed (syncRun H a w1 es).2 = 0 :=
    Machine.measure_run (μ := fun x : World × SyncPc => stepsLeft placed x.2)
      (I := Resuming H a u route placed w1)
      (fun _ _ hx he => (syncStep_resuming hH hw hx he).1)
      (fun _ _ hx he => (syncStep_resuming hH hw hx he).2) hstart hes hlen
  generalize syncRun H a w1 es = x at hrun hdone ⊢
  obtain ⟨w, pc⟩ := x
  cases pc with
  | finished result =>
    cases result with
    | ok _ => exact .inl ⟨rfl, hrun.1, hrun.2⟩
    | error reason => exact .inr ⟨⟨reason, rfl⟩, hrun⟩
  | start | fetching | rebuilt | forwarding | releasing => simp [stepsLeft] at hdone

theorem interrupted_of_syncRun (hH : ∀ i, H.CollisionFree (u.shard i)) {w0 w : World}
    {es0 : List DistEvent} (hdist : distRun H u route w0 es0 = (w, .finished 0 placed))
    {es : List SyncEvent} (hpending : (syncRun H a w es).1.pending ≠ none) :
    Interrupted H u route placed (syncRun H a w es).1 := by
  obtain ⟨hrecord, hplaced, -⟩ := partOfRecord_of_distRun hH hdist
  obtain ⟨-, hwell, -⟩ := distRun_placed route hH w0 es0
  rw [hdist] at hwell
  obtain ⟨hkept, hchunks⟩ := syncRun_only_removes (H := H) (a := a) w es
  refine ⟨(hkept.resolve_right hpending).trans hrecord, hwell.1.nodup (by decide), ?_, ?_⟩
  · intro i hi
    rw [← (hplaced i hi).1]
    exact hchunks _ _
  · exact fun i hi => (hplaced i hi).2

/-- A later synchronisation with honest partners succeeds exactly if the first one, wherever it
stopped, has left two shards, and the server can take the stream or has it. -/
theorem later_sync_iff (hH : ∀ i, H.CollisionFree (u.shard i)) {w0 w : World}
    {es0 : List DistEvent} (hdist : distRun H u route w0 es0 = (w, .finished 0 placed))
    {es1 es2 : List SyncEvent} (hpending : (syncRun H a w es1).1.pending ≠ none)
    (hes2 : Machine.Along (fun x e => syncStep H a e x.1 x.2) Honest
      ((syncRun H a w es1).1, .start) es2)
    (hlen : 2 * placed.length + 5 ≤ es2.length) :
    ((syncRun H a (syncRun H a w es1).1 es2).2 = .finished (.ok ()) ∧
      Delivered a u (syncRun H a w es1).1.server
        (syncRun H a (syncRun H a w es1).1 es2).1.server ∧
      (syncRun H a (syncRun H a w es1).1 es2).1.pending = none) ↔
    Finishable H a u route placed (syncRun H a w es1).1 := by
  have hw := interrupted_of_syncRun hH hdist hpending
  generalize (syncRun H a w es1).1 = w1 at hw hes2 ⊢
  constructor
  · rintro ⟨hok, -, -⟩
    rcases syncRun_honest hH hw hes2 hlen with ⟨-, -, hfinish⟩ | ⟨⟨reason, herr⟩, -⟩
    · exact hfinish
    · rw [hok] at herr
      exact absurd (SyncPc.finished.inj herr) (by simp)
  · intro hfinish
    rcases syncRun_honest hH hw hes2 hlen with ⟨hok, hnone, -⟩ | ⟨-, hnot⟩
    · have hpart : ∀ t, w1.pending = some t → PartOfRecord H u route t := by
        intro t ht
        refine ⟨placed, hw.nodup, (manifestOf H u route placed).text.length, ?_⟩
        rw [List.take_length]
        exact Option.some.inj (ht.symm.trans hw.pending)
      have hkeeps : Machine.Along (fun x e => syncStep H a e x.1 x.2) (KeepsAtJoin u)
          (w1, .start) es2 :=
        Machine.along_imp (I := fun _ => True) (fun _ _ _ _ => trivial)
          (fun _ e _ he _ _ _ => JoinStorage.keeps_of_closing he.join.closing _) trivial hes2
      have hdelivered := (syncRun_delivering hH hpart hkeeps).delivered
      exact ⟨hok, hdelivered (by rw [hok]; rfl), hnone⟩
    · exact absurd hfinish hnot

end Resume

def honestEvent (x : World × SyncPc) : SyncEvent where
  manifest := .done
  fetch :=
    match x.2 with
    | .fetching _ (ref :: _) _ => honestFetch x.1 calmEnv ref
    | _ => ⟨true, [], .done, .done⟩
  join := .buffered
  connects := true
  env := calmEnv
  link := ⟨(sendLine x.2.request.1 ++ x.2.request.2).length, true⟩
  removes := true

theorem honest_honestEvent (x : World × SyncPc) : Honest x (honestEvent x) where
  manifest := rfl
  fetch m ref todo r h := by
    unfold honestEvent
    rw [h]
  join := JoinStorage.buffered_sound
  connects := rfl
  env := calmEnv_sound
  link := ⟨le_rfl, rfl⟩
  removes := rfl

def honestEvents (H : Sha256) (a : Account) : ℕ → World × SyncPc → List SyncEvent
  | 0, _ => []
  | n + 1, x => honestEvent x :: honestEvents H a n (syncStep H a (honestEvent x) x.1 x.2)

theorem along_honestEvents (H : Sha256) (a : Account) (n : ℕ) (x : World × SyncPc) :
    Machine.Along (fun x e => syncStep H a e x.1 x.2) Honest x (honestEvents H a n x) := by
  induction n generalizing x with
  | zero => trivial
  | succ n ih => exact ⟨honest_honestEvent x, ih _⟩

theorem length_honestEvents (H : Sha256) (a : Account) (n : ℕ) (x : World × SyncPc) :
    (honestEvents H a n x).length = n := by
  induction n generalizing x with
  | zero => rfl
  | succ n ih => rw [honestEvents, List.length_cons, ih]

/-- The world in which a synchronisation stops that has delivered the file and released the given
number of shards. -/
def sampleStopped (released : ℕ) : World :=
  (syncRun sampleHash sampleAccount samplePending ((sampleSyncs .buffered).take (8 + released))).1

/-- The synchronisation after that one. -/
def sampleLater (released : ℕ) : World × SyncPc :=
  syncRun sampleHash sampleAccount (sampleStopped released)
    (honestEvents sampleHash sampleAccount 13 (sampleStopped released, .start))

/-- After two of the four releases it can still be finished. -/
theorem later_sync_two_released :
    (sampleLater 2).2 = .finished (.ok ()) ∧
    Delivered sampleAccount sampleUpload (sampleStopped 2).server (sampleLater 2).1.server ∧
    (sampleLater 2).1.pending = none := by
  obtain ⟨hpending, hcount⟩ : (sampleStopped 2).pending.isSome = true ∧
      Config.kDataShards ≤ [Shard.d0, .d1, .p0, .p1].countP
        (present sampleHash sampleUpload sampleRoute (sampleStopped 2)) := by decide +kernel
  have hsize : sampleUpload.stream.length ≤ Config.kMaxTransferSize.toNat := by decide
  have hiff := @later_sync_iff sampleHash sampleAccount sampleUpload sampleRoute _
    sampleHash_collisionFree _ _ _ samplePending_eq ((sampleSyncs .buffered).take (8 + 2))
    (honestEvents sampleHash sampleAccount 13 (sampleStopped 2, .start))
  unfold sampleLater
  unfold sampleStopped at hpending hcount hiff ⊢
  generalize (syncRun sampleHash sampleAccount samplePending
    ((sampleSyncs .buffered).take (8 + 2))).1 = w1 at hpending hcount hiff ⊢
  exact (hiff (Option.isSome_iff_ne_none.mp hpending) (along_honestEvents _ _ _ _)
    (by rw [length_honestEvents]; decide)).mpr ⟨by decide, hcount, .inl hsize⟩

/-- After three it cannot: the server has the file, and its record stays for ever. -/
theorem stuck_three_released :
    (sampleStopped 3).pending.isSome = true ∧
    sampleUpload.fileOn sampleAccount (sampleStopped 3).server = some sampleUpload.stream ∧
    Machine.Along (fun x e => syncStep sampleHash sampleAccount e x.1 x.2) Honest
      (sampleStopped 3, .start)
      (honestEvents sampleHash sampleAccount 13 (sampleStopped 3, .start)) ∧
    (sampleLater 3).2.released = false ∧ (sampleLater 3).1.pending = (sampleStopped 3).pending := by
  obtain ⟨hpending, hfile, hreleased, hsame⟩ :
      (sampleStopped 3).pending.isSome = true ∧
      sampleUpload.fileOn sampleAccount (sampleStopped 3).server = some sampleUpload.stream ∧
      (sampleLater 3).2.released = false ∧
      (sampleLater 3).1.pending = (sampleStopped 3).pending := by decide +kernel
  exact ⟨hpending, hfile, along_honestEvents _ _ _ _, hreleased, hsame⟩

end PersonalCloud
