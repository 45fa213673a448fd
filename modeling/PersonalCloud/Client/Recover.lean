import PersonalCloud.Client.Upload

/-! Fetching the shards of a record back from their peers, keeping those whose hash is right, and
joining what was kept. -/
namespace PersonalCloud

open Proto Channel Remote

/-- How a file is read: it is not opened, the reading ends early, or all of it is read. -/
inductive FileRead where
  | notOpened
  | cut (k : ℕ)
  | done

def FileRead.of (r : FileRead) (content : Bytes) : Option Bytes :=
  match r with
  | .notOpened => none
  | .cut k => some (content.take k)
  | .done => some content

/-- The hash of a file; empty when it is not there or not opened. -/
def sha256FileHex (H : Sha256) (r : FileRead) (file : Option Bytes) : Bytes :=
  ((file.bind r.of).map H.hex).getD []

/-- What a peer sends and what local storage does while one shard is fetched. -/
structure Fetch where
  connects : Bool
  incoming : Bytes
  write : BodyWrite
  hash : FileRead

/-- The four temporary files, which of them hold a verified shard, and how often one was
verified. -/
structure Recovered where
  holders : Shard → Option Bytes
  usable : Shard → Bool
  recovered : ℕ

def Recovered.start : Recovered := ⟨fun _ => none, fun _ => false, 0⟩

def fetchShard (H : Sha256) (f : Fetch) (ref : ShardRef) (r : Recovered) : Recovered :=
  match Shard.ofIndex ref.index with
  | none => r
  | some i =>
      if f.connects = false then r
      else
        let got := getChunk f.write f.incoming (r.holders i)
        let r := { r with holders := Function.update r.holders i got.2 }
        match got.1 with
        | .error _ => r
        | .ok false => r
        | .ok true =>
            if sha256FileHex H f.hash got.2 ≠ ref.chunkId then r
            else { r with usable := Function.update r.usable i true, recovered := r.recovered + 1 }

def fetchShards (H : Sha256) (fetch : ℕ → Fetch) : ℕ → List ShardRef → Recovered → Recovered
  | _, [], r => r
  | k, ref :: refs, r => fetchShards H fetch (k + 1) refs (fetchShard H (fetch k) ref r)

/-- An empty path marks a shard as unavailable to the joiner. -/
def joinRecovered (J : JoinStorage) (m : Manifest) (r : Recovered) : Except String Bytes :=
  if r.recovered < Config.kDataShards then
    .error s!"only {r.recovered} verified shard(s); {Config.kDataShards} are needed"
  else
    joinShards J (fun i => if r.usable i then r.holders i else none) m.shardSize.toNat
      m.streamSize.toNat

def rebuildStream (H : Sha256) (J : JoinStorage) (fetch : ℕ → Fetch) (m : Manifest) :
    Except String Bytes :=
  joinRecovered J m (fetchShards H fetch 0 m.shards .start)

section Kept

variable {H : Sha256} {u : SealedUpload}

/-- Each of the shards is listed at most once, under its hash. -/
def Describes (H : Sha256) (u : SealedUpload) (refs : List ShardRef) : Prop :=
  (refs.map ShardRef.index).Nodup ∧
    ∀ ref ∈ refs, ∃ i : Shard, ref.index = i.index ∧ ref.chunkId = chunkId H u i

/-- Every usable file begins with its shard, the number of them is known, and none of those still
to be fetched is among them. -/
structure Recovered.Verified (u : SealedUpload) (todo : List ShardRef) (r : Recovered) : Prop where
  begins : ∀ i, r.usable i = true → ∃ c k, r.holders i = some c ∧ c.take k = u.shard i
  counted : r.recovered = [Shard.d0, .d1, .p0, .p1].countP r.usable
  fresh : ∀ ref ∈ todo, ∀ i : Shard, ref.index = i.index → r.usable i = false

theorem ofIndex_index (i : Shard) : Shard.ofIndex i.index = some i := by cases i <;> rfl

theorem index_of_ofIndex {n : ℕ} {i : Shard} (h : Shard.ofIndex n = some i) : n = i.index := by
  unfold Shard.ofIndex at h
  split at h
  · exact Option.some.inj h ▸ rfl
  · exact Option.some.inj h ▸ rfl
  · exact Option.some.inj h ▸ rfl
  · exact Option.some.inj h ▸ rfl
  · contradiction

theorem exists_shard_iff {p : Shard → Prop} {n : ℕ} :
    (∃ i : Shard, n = i.index ∧ p i) ↔ ∃ i ∈ Shard.ofIndex n, p i := by
  constructor
  · rintro ⟨i, rfl, hi⟩
    exact ⟨i, ofIndex_index i, hi⟩
  · rintro ⟨i, hi, hp⟩
    exact ⟨i, index_of_ofIndex hi, hp⟩

instance (H : Sha256) (u : SealedUpload) (refs : List ShardRef) : Decidable (Describes H u refs) :=
  decidable_of_iff ((refs.map ShardRef.index).Nodup ∧
      ∀ ref ∈ refs, ∃ i ∈ Shard.ofIndex ref.index, ref.chunkId = chunkId H u i)
    (and_congr_right fun _ => forall₂_congr fun _ _ => exists_shard_iff.symm)

theorem index_injective : Function.Injective Shard.index := by
  intro i j h
  have := congrArg Shard.ofIndex h
  rw [ofIndex_index, ofIndex_index] at this
  exact Option.some.inj this

theorem Recovered.start_verified (todo : List ShardRef) : Recovered.start.Verified u todo where
  begins i h := by simp [Recovered.start] at h
  counted := rfl
  fresh _ _ _ _ := rfl

theorem chunkId_ne_nil (i : Shard) : chunkId H u i ≠ [] := by
  intro h
  have hlen : (chunkId H u i).length = 64 := by rw [chunkId, Sha256.hex, toHex_length, H.length_digest]
  rw [h] at hlen
  contradiction

/-- A file with the hash of a shard begins with the shard, however far it was read. -/
theorem begins_of_hash (hH : ∀ i, H.CollisionFree (u.shard i)) {r : FileRead} {file : Option Bytes}
    {i : Shard} (h : sha256FileHex H r file = chunkId H u i) :
    ∃ c k, file = some c ∧ c.take k = u.shard i := by
  cases file with
  | none => exact absurd h.symm (chunkId_ne_nil i)
  | some c =>
    cases r with
    | notOpened => exact absurd h.symm (chunkId_ne_nil i)
    | cut k => exact ⟨c, k, rfl, eq_of_hex_eq (hH i) h⟩
    | done => exact ⟨c, c.length, rfl, by rw [List.take_length]; exact eq_of_hex_eq (hH i) h⟩

/-- What a round of the loop does: it changes at most the file of its shard, and a file that it
counts has the hash. -/
theorem fetchShard_cases (f : Fetch) {ref : ShardRef} {i : Shard} (hi : ref.index = i.index)
    (r : Recovered) : ∃ file,
    fetchShard H f ref r = { r with holders := Function.update r.holders i file } ∨
    (fetchShard H f ref r = ⟨Function.update r.holders i file, Function.update r.usable i true,
        r.recovered + 1⟩ ∧ sha256FileHex H f.hash file = ref.chunkId) := by
  unfold fetchShard
  simp only [hi, ofIndex_index]
  by_cases hconn : f.connects = false
  · rw [if_pos hconn]
    exact ⟨r.holders i, .inl (by simp)⟩
  · rw [if_neg hconn]
    refine ⟨(getChunk f.write f.incoming (r.holders i)).2, ?_⟩
    split
    · exact .inl rfl
    · exact .inl rfl
    · split_ifs with hhash
      · exact .inl rfl
      · exact .inr ⟨rfl, not_not.mp hhash⟩

theorem countP_update (i : Shard) {usable : Shard → Bool} (h : usable i = false) :
    [Shard.d0, .d1, .p0, .p1].countP (Function.update usable i true) =
      [Shard.d0, .d1, .p0, .p1].countP usable + 1 := by
  cases i <;> simp [List.countP_cons, h] <;> omega

theorem fetchShard_verified (hH : ∀ i, H.CollisionFree (u.shard i)) (f : Fetch) {ref : ShardRef}
    {todo : List ShardRef} (hrefs : Describes H u (ref :: todo)) {r : Recovered}
    (h : r.Verified u (ref :: todo)) : (fetchShard H f ref r).Verified u todo := by
  obtain ⟨i, hindex, hid⟩ := hrefs.2 ref (by simp)
  have hfresh : r.usable i = false := h.fresh ref (by simp) i hindex
  have hothers : ∀ other ∈ todo, ∀ j : Shard, other.index = j.index → j ≠ i := by
    rintro other hother j hj rfl
    have hnodup := hrefs.1
    rw [List.map_cons, List.nodup_cons] at hnodup
    exact hnodup.1 (List.mem_map.mpr ⟨other, hother, hj.trans hindex.symm⟩)
  obtain ⟨file, heq | ⟨heq, hhash⟩⟩ := fetchShard_cases (H := H) f hindex r
  · rw [heq]
    constructor
    · intro j hj
      have hne : j ≠ i := by
        rintro rfl
        exact absurd hj (by simp [hfresh])
      simpa [Function.update_of_ne hne] using h.begins j hj
    · exact h.counted
    · exact fun other hother => h.fresh other (List.mem_cons_of_mem _ hother)
  · rw [heq]
    constructor
    · intro j hj
      by_cases hne : j = i
      · subst hne
        simpa using begins_of_hash hH (hhash.trans hid)
      · have hold : r.usable j = true := by simpa [Function.update_of_ne hne] using hj
        simpa [Function.update_of_ne hne] using h.begins j hold
    · exact (congrArg (· + 1) h.counted).trans (countP_update i hfresh).symm
    · intro other hother j hj
      exact (Function.update_of_ne (hothers other hother j hj) _ _).trans
        (h.fresh other (List.mem_cons_of_mem _ hother) j hj)

theorem Describes.tail {ref : ShardRef} {refs : List ShardRef} (h : Describes H u (ref :: refs)) :
    Describes H u refs :=
  ⟨(List.nodup_cons.mp h.1).2, fun x hx => h.2 x (List.mem_cons_of_mem _ hx)⟩

theorem fetchShards_verified (hH : ∀ i, H.CollisionFree (u.shard i)) (fetch : ℕ → Fetch) (k : ℕ)
    {refs : List ShardRef} (hrefs : Describes H u refs) {r : Recovered} (h : r.Verified u refs) :
    (fetchShards H fetch k refs r).Verified u [] := by
  induction refs generalizing k r with
  | nil => exact h
  | cons ref refs ih => exact ih (k + 1) hrefs.tail (fetchShard_verified hH (fetch k) hrefs h)

/-- Two different usable files are enough. -/
theorem Recovered.Verified.enough {todo : List ShardRef} {r : Recovered} (h : r.Verified u todo)
    {i j : Shard} (hne : i ≠ j) (hi : r.usable i = true) (hj : r.usable j = true) :
    Config.kDataShards ≤ r.recovered := by
  rw [h.counted]
  cases i <;> cases j <;> simp_all [List.countP_cons, Config.kDataShards] <;> omega

end Kept

section Joined

variable {H : Sha256} {u : SealedUpload} {J : JoinStorage} {m : Manifest} {r : Recovered}

structure RecordsSizes (u : SealedUpload) (m : Manifest) : Prop where
  streamSize : m.streamSize.toNat = u.stream.length
  shardSize : m.shardSize.toNat = (u.stream.length + 1) / 2

instance (u : SealedUpload) (m : Manifest) : Decidable (RecordsSizes u m) :=
  decidable_of_iff (m.streamSize.toNat = u.stream.length ∧
    m.shardSize.toNat = (u.stream.length + 1) / 2) ⟨fun h => ⟨h.1, h.2⟩, fun h => ⟨h.1, h.2⟩⟩

def Recovered.files (r : Recovered) (i : Shard) : Option Bytes :=
  if r.usable i then r.holders i else none

theorem Recovered.Verified.intactShards {todo : List ShardRef} (h : r.Verified u todo) :
    IntactShards r.files (firstHalf u.stream) (secondHalf u.stream) := by
  intro i c hc hlen
  unfold Recovered.files at hc
  split_ifs at hc with husable
  obtain ⟨c', k, hfile, htake⟩ := h.begins i husable
  obtain rfl : c = c' := Option.some.inj (hc.symm.trans hfile)
  have hshard : u.shard i = shardOf (firstHalf u.stream) (secondHalf u.stream) i := by
    rw [SealedUpload.shard, splitStream_eq]
  have hlen' : (c.take k).length = c.length := by
    rw [htake, hshard, shardOf_length (halves_length _), hlen]
  rw [← hshard, ← htake]
  exact (List.take_of_length_le (by rw [List.length_take] at hlen'; omega)).symm

/-- A rebuilt stream is the original one, but for what the final close lost of its second half. -/
theorem joinRecovered_ok {todo : List ShardRef} (h : r.Verified u todo) (hm : RecordsSizes u m)
    {c : Bytes} (hjoin : joinRecovered J m r = .ok c) :
    c = resizeFile (firstHalf u.stream ++ (secondHalf u.stream).take
      (J.stored Config.kIoBufferSize ((u.stream.length + 1) / 2))) u.stream.length := by
  unfold joinRecovered at hjoin
  split_ifs at hjoin
  rw [hm.streamSize, hm.shardSize, joinShards] at hjoin
  exact joinShardsBy_ok (firstHalf_length _) (secondHalf_length _) (by decide) h.intactShards hjoin

theorem joinRecovered_sound {todo : List ShardRef} (h : r.Verified u todo) (hm : RecordsSizes u m)
    (hJ : J.Sound) {c : Bytes} (hjoin : joinRecovered J m r = .ok c) : c = u.stream := by
  rw [joinRecovered_ok h hm hjoin, hJ.stored_eq,
    List.take_of_length_le (secondHalf_length _).le, resize_halves]

theorem joinRecovered_available {todo : List ShardRef} (h : r.Verified u todo)
    (hm : RecordsSizes u m) (hJ : J.Sound) {i j : Shard} (hne : i ≠ j)
    (hi : r.files i = some (u.shard i)) (hj : r.files j = some (u.shard j)) :
    joinRecovered J m r = .ok u.stream := by
  have husable {i : Shard} (hi : r.files i = some (u.shard i)) : r.usable i = true := by
    unfold Recovered.files at hi
    split_ifs at hi with husable
    exact husable
  have henough := h.enough hne (husable hi) (husable hj)
  rw [joinRecovered, if_neg (not_lt.mpr henough), hm.streamSize, hm.shardSize, joinShards]
  have hjoin : joinShardsBy Config.kIoBufferSize J r.files (splitStream u.stream).2
      u.stream.length = .ok u.stream :=
    joinShardsBy_splitStream hJ (by decide) u.stream h.intactShards hne hi hj
  rwa [splitStream_eq] at hjoin

end Joined

/-- The peer sends the shard as it is, and local storage keeps and reads it. -/
structure Fetch.Returns (f : Fetch) (shard : Bytes) : Prop where
  connects : f.connects = true
  incoming : ∃ rest, f.incoming = sendLine (sp kData (Decimal.text shard.length)) ++ shard ++ rest
  write : f.write = .done
  hash : f.hash = .done

section Returned

variable {H : Sha256} {u : SealedUpload} {i : Shard}

theorem fetchShard_returned {f : Fetch} {ref : ShardRef} (hf : f.Returns (u.shard i))
    (hlen : (u.shard i).length ≤ Config.kMaxTransferSize.toNat) (hindex : ref.index = i.index)
    (hid : ref.chunkId = chunkId H u i) (r : Recovered) :
    fetchShard H f ref r = ⟨Function.update r.holders i (some (u.shard i)),
      Function.update r.usable i true, r.recovered + 1⟩ := by
  obtain ⟨rest, hincoming⟩ := hf.incoming
  have hconn : f.connects ≠ false := by simp [hf.connects]
  have hhash : sha256FileHex H .done (some (u.shard i)) = chunkId H u i := rfl
  simp only [fetchShard, hindex, ofIndex_index, hconn, hf.write, hf.hash, hincoming,
    getChunk_data hlen, hhash, hid]
  simp

theorem fetchShard_returns {f : Fetch} {ref : ShardRef} (hf : f.Returns (u.shard i))
    (hlen : (u.shard i).length ≤ Config.kMaxTransferSize.toNat) (hindex : ref.index = i.index)
    (hid : ref.chunkId = chunkId H u i) (r : Recovered) :
    (fetchShard H f ref r).files i = some (u.shard i) := by
  simp [fetchShard_returned hf hlen hindex hid, Recovered.files]

theorem fetchShard_files_ne (f : Fetch) {ref : ShardRef} (hne : ref.index ≠ i.index)
    (r : Recovered) : (fetchShard H f ref r).files i = r.files i := by
  cases hj : Shard.ofIndex ref.index with
  | none => simp [fetchShard, hj]
  | some j =>
    have hindex : ref.index = j.index := index_of_ofIndex hj
    have hij : i ≠ j := by
      rintro rfl
      exact hne hindex
    obtain ⟨file, heq | ⟨heq, -⟩⟩ := fetchShard_cases (H := H) f hindex r
    · simp [heq, Recovered.files, Function.update_of_ne hij]
    · simp [heq, Recovered.files, Function.update_of_ne hij]

theorem fetchShards_files_ne (fetch : ℕ → Fetch) (k : ℕ) {refs : List ShardRef}
    (hne : ∀ ref ∈ refs, ref.index ≠ i.index) (r : Recovered) :
    (fetchShards H fetch k refs r).files i = r.files i := by
  induction refs generalizing k r with
  | nil => rfl
  | cons ref refs ih =>
    rw [fetchShards, ih (k + 1) (fun x hx => hne x (List.mem_cons_of_mem _ hx)),
      fetchShard_files_ne _ (hne ref (by simp))]

theorem fetchShards_returns {fetch : ℕ → Fetch} {k n : ℕ} {refs : List ShardRef}
    (hrefs : Describes H u refs) {ref : ShardRef} (hn : refs[n]? = some ref)
    (hindex : ref.index = i.index) (hf : (fetch (k + n)).Returns (u.shard i))
    (hlen : (u.shard i).length ≤ Config.kMaxTransferSize.toNat) (r : Recovered) :
    (fetchShards H fetch k refs r).files i = some (u.shard i) := by
  induction refs generalizing k n r with
  | nil => simp at hn
  | cons head refs ih =>
    cases n with
    | zero =>
      obtain rfl : head = ref := by simpa using hn
      have hothers : ∀ x ∈ refs, x.index ≠ i.index := by
        intro x hx hxi
        have hnodup := hrefs.1
        rw [List.map_cons, List.nodup_cons] at hnodup
        exact hnodup.1 (List.mem_map.mpr ⟨x, hx, hxi.trans hindex.symm⟩)
      obtain ⟨j, hj, hid⟩ := hrefs.2 head (by simp)
      obtain rfl : j = i := index_injective (hj.symm.trans hindex)
      rw [fetchShards, fetchShards_files_ne _ _ hothers]
      exact fetchShard_returns hf hlen hindex hid r
    | succ n =>
      have hnext : k + 1 + n = k + (n + 1) := by omega
      exact ih hrefs.tail (by simpa using hn) (hnext ▸ hf) _

end Returned

section Recorded

variable {H : Sha256} {u : SealedUpload} {route : Route}

theorem describes_manifestOf {placed : List Shard} (h : placed.Nodup) :
    Describes H u (manifestOf H u route placed).shards := by
  constructor
  · rw [manifestOf, List.map_map]
    exact h.map index_injective
  · intro ref href
    obtain ⟨i, -, rfl⟩ := List.mem_map.mp href
    exact ⟨i, rfl, rfl⟩

theorem Describes.perm {refs refs' : List ShardRef} (h : Describes H u refs)
    (hperm : refs'.Perm refs) : Describes H u refs' :=
  ⟨(hperm.map _).nodup_iff.mpr h.1, fun ref href => h.2 ref (hperm.subset href)⟩

theorem recordsSizes_manifestOf (placed : List Shard) :
    RecordsSizes u (manifestOf H u route placed) := by
  have hlt := u.stream_lt
  have hsize : UInt64.size = 2 ^ 64 := rfl
  constructor
  · exact UInt64.toNat_ofNat_of_lt' (by omega)
  · rw [manifestOf, splitStream_eq]
    exact UInt64.toNat_ofNat_of_lt' (by omega)

def Manifest.withShards (m : Manifest) (refs : List ShardRef) : Manifest := { m with shards := refs }

def Unmodified (u : SealedUpload) (ref : ShardRef) (f : Fetch) : Prop :=
  ∃ i : Shard, ref.index = i.index ∧ f.Returns (u.shard i)

/-- From the manifest of a distribution, its shards in any order, no wrong stream is ever rebuilt,
and two shards that come back unmodified rebuild the right one, whatever the other peers do. -/
theorem rebuildStream_manifestOf (hH : ∀ i, H.CollisionFree (u.shard i)) {w : World}
    {es : List DistEvent} {placed : List Shard}
    (hdist : (distRun H u route w es).2 = .opening placed) {refs : List ShardRef}
    (hrefs : refs.Perm (manifestOf H u route placed).shards) {J : JoinStorage} (hJ : J.Sound)
    (fetch : ℕ → Fetch) :
    ((∃ e, rebuildStream H J fetch ((manifestOf H u route placed).withShards refs) = .error e) ∨
      rebuildStream H J fetch ((manifestOf H u route placed).withShards refs) =
        .ok u.stream) ∧
    ∀ k n ref ref', k ≠ n → refs[k]? = some ref → refs[n]? = some ref' →
      Unmodified u ref (fetch k) → Unmodified u ref' (fetch n) →
      rebuildStream H J fetch ((manifestOf H u route placed).withShards refs) =
        .ok u.stream := by
  obtain ⟨-, hwell, hplaced⟩ := distRun_placed route hH w es
  rw [hdist] at hwell hplaced
  have hnodup : placed.Nodup := hwell.1.nodup (by decide)
  have hdesc : Describes H u refs := (describes_manifestOf hnodup).perm hrefs
  have hverified := fetchShards_verified hH fetch 0 hdesc (Recovered.start_verified refs)
  have hrecorded : RecordsSizes u (manifestOf H u route placed) := recordsSizes_manifestOf placed
  have hsizes : RecordsSizes u ((manifestOf H u route placed).withShards refs) :=
    ⟨hrecorded.streamSize, hrecorded.shardSize⟩
  constructor
  · cases hjoin : rebuildStream H J fetch ((manifestOf H u route placed).withShards refs) with
    | error e => exact .inl ⟨e, rfl⟩
    | ok c => exact .inr (congrArg _ (joinRecovered_sound hverified hsizes hJ hjoin))
  · rintro k n ref ref' hkn hk hn ⟨i, hi, hfi⟩ ⟨j, hj, hfj⟩
    have hij : i ≠ j := by
      rintro rfl
      have hlt := (List.getElem?_eq_some_iff.mp hk).1
      apply hkn
      have hget (m : ℕ) : (refs.map ShardRef.index)[m]? = refs[m]?.map ShardRef.index := by simp
      refine (List.getElem?_inj (by simpa using hlt) hdesc.1).mp ?_
      rw [hget, hget, hk, hn, Option.map_some, Option.map_some, hi, hj]
    -- all shards have one length, and a peer has accepted one of them
    have hlen (i : Shard) : (u.shard i).length ≤ Config.kMaxTransferSize.toNat := by
      obtain ⟨p, hp⟩ := List.exists_mem_of_length_pos (Nat.zero_lt_two.trans_le hwell.2)
      rw [u.shard_length_eq i p]
      exact (hplaced p hp).2
    have hfile {n : ℕ} {ref : ShardRef} {i : Shard} (hn : refs[n]? = some ref)
        (hi : ref.index = i.index) (hf : (fetch n).Returns (u.shard i)) :
        (fetchShards H fetch 0 refs .start).files i = some (u.shard i) :=
      fetchShards_returns hdesc hn hi (by rwa [Nat.zero_add]) (hlen i) _
    exact joinRecovered_available hverified hsizes hJ hij (hfile hk hi hfi) (hfile hn hj hfj)

end Recorded

def sampleDigest (b : Bytes) : Bytes :=
  if b = [1, 2] then
    [161, 40, 113, 254, 226, 16, 251, 134, 25, 41, 30, 174, 161, 148, 88, 28, 189, 37, 49,
     228, 178, 55, 89, 210, 37, 246, 128, 105, 35, 246, 50, 34]
  else if b = [3, 0] then
    [155, 79, 178, 78, 221, 109, 29, 136, 48, 226, 114, 57, 130, 99, 205, 191, 2, 107, 151,
     57, 44, 195, 83, 135, 185, 145, 220, 2, 72, 166, 40, 249]
  else if b = [2, 2] then
    [80, 207, 247, 44, 142, 85, 5, 70, 214, 97, 236, 35, 84, 49, 136, 143, 178, 249, 247,
     186, 218, 64, 193, 112, 32, 212, 127, 108, 204, 17, 122, 174]
  else if b = [7, 4] then
    [174, 115, 203, 245, 237, 53, 160, 154, 145, 144, 87, 217, 119, 255, 38, 216, 229, 96,
     124, 251, 51, 157, 56, 91, 1, 71, 93, 245, 242, 199, 103, 223]
  else List.replicate 32 0

def sampleHash : Sha256 where
  digest := sampleDigest
  length_digest b := by
    unfold sampleDigest
    split_ifs <;> rfl

def sampleUpload : SealedUpload where
  name := ascii "a"
  stream := [1, 2, 3]
  tag := List.replicate 64 97
  name_safe := by decide
  tag_hex := .inr (by decide)
  stream_lt := by decide

def sampleRoute : Route where
  server := ⟨ascii "server:5050", ⟨by decide, by decide⟩⟩
  peers
    | .d0 => ⟨ascii "peer0:5050", ⟨by decide, by decide⟩⟩
    | .d1 => ⟨ascii "peer1:5050", ⟨by decide, by decide⟩⟩
    | .p0 => ⟨ascii "peer2:5050", ⟨by decide, by decide⟩⟩
    | .p1 => ⟨ascii "peer3:5050", ⟨by decide, by decide⟩⟩

def World.empty : World := ⟨∅, fun _ => ∅, none⟩

def sampleDist : DistEvent := ⟨true, true, calmEnv, ⟨1000, true⟩, true, none⟩

theorem sampleHash_collisionFree (i : Shard) : sampleHash.CollisionFree (sampleUpload.shard i) := by
  have hshard : sampleUpload.shard i ∈ ([[1, 2], [3, 0], [2, 2], [7, 4]] : List Bytes) := by
    cases i <;> decide +kernel
  have hapart : ∀ b ∈ ([[1, 2], [3, 0], [2, 2], [7, 4]] : List Bytes),
      sampleDigest b ≠ List.replicate 32 0 ∧
      ∀ c ∈ ([[1, 2], [3, 0], [2, 2], [7, 4]] : List Bytes),
        sampleDigest c = sampleDigest b → c = b := by decide +kernel
  obtain ⟨hzero, hinj⟩ := hapart _ hshard
  intro c h
  by_cases hc : c ∈ ([[1, 2], [3, 0], [2, 2], [7, 4]] : List Bytes)
  · exact hinj c hc h
  · simp only [List.mem_cons, List.not_mem_nil, or_false, not_or] at hc
    obtain ⟨h0, h1, h2, h3⟩ := hc
    have hc : sampleHash.digest c = List.replicate 32 0 := by
      simp only [sampleHash, sampleDigest, h0, h1, h2, h3, ↓reduceIte]
    exact absurd (h.symm.trans hc) hzero

/-- The second and the last peer are enough when the first one lies and the third one is gone. -/
theorem rebuildStream_manifestOf_hostile :
    let intact (shard : Bytes) : Fetch := ⟨true, sendLine (ascii "DATA 2") ++ shard, .done, .done⟩
    let fetch : ℕ → Fetch
      | 0 => ⟨true, sendLine (ascii "DATA 2") ++ [9, 9], .done, .done⟩
      | 1 => intact [3, 0]
      | 3 => intact [7, 4]
      | _ => ⟨false, [], .done, .done⟩
    rebuildStream sampleHash JoinStorage.buffered fetch
      (manifestOf sampleHash sampleUpload sampleRoute [.d0, .d1, .p0, .p1]) = .ok [1, 2, 3] := by
  intro intact fetch
  have hdist : (distRun sampleHash sampleUpload sampleRoute World.empty
      (List.replicate 5 sampleDist)).2 = .opening [.d0, .d1, .p0, .p1] := by decide +kernel
  have hshards : sampleUpload.shard .d1 = [3, 0] ∧ sampleUpload.shard .p1 = [7, 4] := by
    decide +kernel
  have hline : sp kData (Decimal.text 2) = ascii "DATA 2" := by decide +kernel
  have hreturns {b : Bytes} (hb : b.length = 2) : (intact b).Returns b :=
    ⟨rfl, ⟨[], by rw [hb, hline, List.append_nil]⟩, rfl, rfl⟩
  have h1 : (fetch 1).Returns (sampleUpload.shard .d1) := hshards.1 ▸ hreturns rfl
  have h3 : (fetch 3).Returns (sampleUpload.shard .p1) := hshards.2 ▸ hreturns rfl
  exact (rebuildStream_manifestOf sampleHash_collisionFree hdist (.refl _)
    JoinStorage.buffered_sound fetch).2 1 3 _ _ (by decide) rfl rfl ⟨.d1, rfl, h1⟩ ⟨.p1, rfl, h3⟩

end PersonalCloud
