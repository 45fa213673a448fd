import PersonalCloud.Client.Calls
import PersonalCloud.Client.Resume
import PersonalCloud.Core.Forgery
import PersonalCloud.System.Interop

/-! Retrieving a file: the stream comes from the server, or is rebuilt from the peers that a pending
record names, and is decrypted to its destination. -/
namespace PersonalCloud

open Proto Channel Remote Store

/-- What happens while a file is retrieved: the connection to the server and everything it sends, how
the pending record is read, what the peers send, the passphrase, and what local storage does. -/
structure DownloadEvent where
  inits : Bool
  reachable : Bool
  connects : Bool
  incoming : Bytes
  write : BodyWrite
  record : FileRead
  fetch : ℕ → Fetch
  join : JoinStorage
  passphrase : Except Bytes Bytes
  storage : OpenStorage

/-- The exit code and the destination afterwards. Both retrieval paths end here. -/
def unsealTo (C : Crypto) (passphrase : Except Bytes Bytes) (J : OpenStorage) (stream : Bytes)
    (dest : Option Bytes) : ℕ × Option Bytes :=
  match passphrase with
  | .error _ => (1, dest)
  | .ok passphrase =>
      match openFile C J stream passphrase dest with
      | (.error _, dest) => (1, dest)
      | (.ok (), dest) => (0, dest)

def recoverFromPeers (C : Crypto) (H : Sha256) (e : DownloadEvent) (pending dest : Option Bytes) :
    ℕ × Option Bytes :=
  match pending.bind e.record.of with
  | none => (1, dest)
  | some content =>
      match Manifest.read content with
      | .error _ => (1, dest)
      | .ok m =>
          match rebuildStream H e.join e.fetch m with
          | .error _ => (1, dest)
          | .ok stream => unsealTo C e.passphrase e.storage stream dest

def cmdDownload (C : Crypto) (H : Sha256) (e : DownloadEvent) (name : Bytes)
    (pending dest : Option Bytes) : ℕ × Option Bytes :=
  if isSafeName name = false then (1, dest)
  else if e.inits = false then (1, dest)
  else if e.reachable = false then recoverFromPeers C H e pending dest
  else if e.connects = false then (1, dest)
  else
    match getFile e.write e.incoming none with
    | (.error _, _) => (1, dest)
    -- the server is up but does not have it; a pending record may still hold the pieces
    | (.ok false, _) => recoverFromPeers C H e pending dest
    | (.ok true, stream) => unsealTo C e.passphrase e.storage (stream.getD []) dest

variable {C : Crypto} {H : Sha256} {e : DownloadEvent} {name : Bytes} {pending dest : Option Bytes}

/-- The server is offline, or up without the file. -/
def DownloadEvent.FallsBack (e : DownloadEvent) : Prop :=
  e.reachable = false ∨ e.connects = true ∧ (getFile e.write e.incoming none).1 = .ok false

theorem cmdDownload_of_fallsBack (h : e.FallsBack) (hname : isSafeName name = true)
    (hinits : e.inits = true) :
    cmdDownload C H e name pending dest = recoverFromPeers C H e pending dest := by
  rw [cmdDownload, if_neg (by simp [hname]), if_neg (by simp [hinits])]
  by_cases hreach : e.reachable = false
  · rw [if_pos hreach]
  · obtain ⟨hconnects, hnone⟩ := h.resolve_left hreach
    rw [if_neg hreach, if_neg (by simp [hconnects])]
    split
    · next heq => simp [heq] at hnone
    · rfl
    · next heq => simp [heq] at hnone

section Distributed

variable {u : SealedUpload} {route : Route} {placed : List Shard}

/-- No wrong stream is rebuilt from what is read of the record of an upload. -/
theorem rebuildStream_record (hH : ∀ i, H.CollisionFree (u.shard i)) {m : Manifest}
    (hm : m.shards = [] ∨ RecordOf H u m) {J : JoinStorage} (hJ : J.Sound) (fetch : ℕ → Fetch) :
    (∃ reason, rebuildStream H J fetch m = .error reason) ∨
      rebuildStream H J fetch m = .ok u.stream := by
  cases hjoin : rebuildStream H J fetch m with
  | error reason => exact .inl ⟨reason, rfl⟩
  | ok c =>
    rcases hm with hnone | hrecord
    · rw [rebuildStream, hnone] at hjoin
      cases hjoin
    · have hverified := fetchShards_verified hH fetch 0 hrecord.shards
        (Recovered.start_verified m.shards)
      exact .inr (congrArg _ (joinRecovered_sound hverified hrecord.sizes hJ hjoin))

theorem rebuildStream_two (hH : ∀ i, H.CollisionFree (u.shard i)) {m : Manifest}
    (hm : RecordOf H u m) {J : JoinStorage} (hJ : J.Sound) {fetch : ℕ → Fetch}
    (hlen : ∀ i, (u.shard i).length ≤ Config.kMaxTransferSize.toNat) {k n : ℕ} {ref ref' : ShardRef}
    (hkn : k ≠ n) (hk : m.shards[k]? = some ref) (hn : m.shards[n]? = some ref')
    (hfk : Unmodified u ref (fetch k)) (hfn : Unmodified u ref' (fetch n)) :
    rebuildStream H J fetch m = .ok u.stream := by
  obtain ⟨i, hi, hfi⟩ := hfk
  obtain ⟨j, hj, hfj⟩ := hfn
  have hij : i ≠ j := by
    rintro rfl
    have hlt := (List.getElem?_eq_some_iff.mp hk).1
    apply hkn
    refine (List.getElem?_inj (by simpa using hlt) hm.shards.1).mp ?_
    rw [List.getElem?_map, List.getElem?_map, hk, hn, Option.map_some, Option.map_some, hi, hj]
  have hverified := fetchShards_verified hH fetch 0 hm.shards (Recovered.start_verified m.shards)
  have hfile {n : ℕ} {ref : ShardRef} {i : Shard} (hn : m.shards[n]? = some ref)
      (hi : ref.index = i.index) (hf : (fetch n).Returns (u.shard i)) :
      (fetchShards H fetch 0 m.shards .start).files i = some (u.shard i) :=
    fetchShards_returns hm.shards hn hi (by rwa [Nat.zero_add]) (hlen i) _
  exact joinRecovered_available hverified hm.sizes hJ hij (hfile hk hi hfi) (hfile hn hj hfj)

theorem except_map_eq_ok {α β : Type} {x : Except String α} {g : α → β} {b : β}
    (h : x.map g = .ok b) : ∃ a, x = .ok a ∧ g a = b := by
  cases x with
  | error reason => cases h
  | ok a => exact ⟨a, rfl, Except.ok.inj h⟩

/-- What is sealed opens, under its passphrase, to what it was. -/
theorem openFile_sealFile {W : WebCrypto} (hsame : SameCrypto C W) {plain : Bytes}
    (hlen : plain.length < Double.limit) {passphrase salt : Bytes}
    (hsalt : salt.length = Config.kSaltLen) {ivs : ℕ → Bytes}
    (hivs : ∀ k, (ivs k).length = Config.kIvLen) {f : SealedFile}
    (hseal : sealFile C (Interop.sealRun passphrase salt ivs hlen) = .ok f) {J : OpenStorage}
    (hJ : J.Sound) (dest : Option Bytes) :
    openFile C J f.stream passphrase dest = (.ok (), some plain) := by
  obtain ⟨key, blocks, hcontainer, hstream, -⟩ :=
    Interop.seal_streams hsame hlen passphrase hsalt hivs
  rw [hseal] at hstream
  rw [show f.stream = Interop.stream salt plain blocks from Except.ok.inj hstream]
  exact Interop.openFile_stream hcontainer hlen hJ dest

theorem read_distributed (hH : ∀ i, H.CollisionFree (u.shard i)) {w : World} {es : List DistEvent}
    (hdist : (distRun H u route w es).2 = .finished 0 placed) {r : FileRead} {content : Bytes}
    (hread : (distRun H u route w es).1.pending.bind r.of = some content) {m : Manifest}
    (hm : Manifest.read content = .ok m) : m.shards = [] ∨ RecordOf H u m := by
  obtain ⟨-, hwell, -⟩ := distRun_placed route hH w es
  have hrecorded := distRun_recorded H u route w es
  rw [hdist] at hwell hrecorded
  have hpending : (distRun H u route w es).1.pending = some (manifestOf H u route placed).text :=
    hrecorded
  rw [hpending, Option.bind_some] at hread
  have hpart : PartOfRecord H u route (manifestOf H u route placed).text :=
    ⟨placed, hwell.1.nodup (by decide), (manifestOf H u route placed).text.length,
      (List.take_length).symm⟩
  exact (hpart.of hread).read hm

/-- A file that went to the peers while its server was offline comes back exactly, or not at all,
whatever the peers send; and it does come back once the shards of two of them do. -/
theorem cmdDownload_distributed {W : WebCrypto} (hsame : SameCrypto C W) {plain : Bytes}
    (hlen : plain.length < Double.limit) {passphrase salt : Bytes}
    (hsalt : salt.length = Config.kSaltLen) {ivs : ℕ → Bytes}
    (hivs : ∀ k, (ivs k).length = Config.kIvLen) {f : SealedFile}
    (hseal : sealFile C (Interop.sealRun passphrase salt ivs hlen) = .ok f)
    (hu : u.stream = f.stream) (hH : ∀ i, H.CollisionFree (u.shard i)) {w : World}
    {es : List DistEvent} (hdist : (distRun H u route w es).2 = .finished 0 placed)
    (he : e.FallsBack) (hpass : e.passphrase = .ok passphrase) (hjoin : e.join.Sound)
    (hJ : e.storage.Sound) (dest : Option Bytes) :
    (cmdDownload C H e u.name (distRun H u route w es).1.pending dest = (1, dest) ∨
      cmdDownload C H e u.name (distRun H u route w es).1.pending dest = (0, some plain)) ∧
    (isSafeName (wireName u.name) = true → e.inits = true → e.record = .done →
      ∀ k n i j, k ≠ n → placed[k]? = some i → placed[n]? = some j →
        (e.fetch k).Returns (u.shard i) → (e.fetch n).Returns (u.shard j) →
        cmdDownload C H e u.name (distRun H u route w es).1.pending dest = (0, some plain)) := by
  have hunseal : unsealTo C e.passphrase e.storage u.stream dest = (0, some plain) := by
    simp only [unsealTo, hpass, hu, openFile_sealFile hsame hlen hsalt hivs hseal hJ dest]
  constructor
  · by_cases hinits : e.inits = true
    · rw [cmdDownload_of_fallsBack he u.name_safe hinits, recoverFromPeers]
      split
      · exact .inl rfl
      · next content hread =>
        split
        · exact .inl rfl
        · next m hm =>
          rcases rebuildStream_record hH (read_distributed hH hdist hread hm) hjoin e.fetch with
            ⟨reason, hfail⟩ | hok
          · rw [hfail]
            exact .inl rfl
          · rw [hok]
            exact .inr hunseal
    · rw [cmdDownload, if_neg (by simp [u.name_safe]), if_pos (by simpa using hinits)]
      exact .inl rfl
  · intro hwire hinits hrecord k n i j hkn hk hn hfk hfn
    obtain ⟨-, hwell, hplaced⟩ := distRun_placed route hH w es
    have hrecorded := distRun_recorded H u route w es
    rw [hdist] at hwell hplaced hrecorded
    have hpending : (distRun H u route w es).1.pending = some (manifestOf H u route placed).text :=
      hrecorded
    have hread : Manifest.read (manifestOf H u route placed).text =
        .ok (recordRead H u route placed) := by
      have hwritable : (manifestOf H u route placed).Writable := writable_manifestOf placed
      have htext := Manifest.read_text hwritable
      rwa [show (manifestOf H u route placed).name = u.name from rfl, if_pos hwire] at htext
    have hfits (i : Shard) : (u.shard i).length ≤ Config.kMaxTransferSize.toNat := by
      obtain ⟨p, hp⟩ := List.exists_mem_of_length_pos (Nat.zero_lt_two.trans_le hwell.2)
      rw [u.shard_length_eq i p]
      exact (hplaced p hp).2
    have hshard {n : ℕ} {i : Shard} (hn : placed[n]? = some i) :
        (recordRead H u route placed).shards[n]? = some (shardRef H u route i) := by
      simp [recordRead, manifestOf, hn]
    have hrebuild := rebuildStream_two hH (recordOf_recordRead (hwell.1.nodup (by decide))) hjoin
      hfits hkn (hshard hk) (hshard hn) ⟨i, rfl, hfk⟩ ⟨j, rfl, hfn⟩
    rw [cmdDownload_of_fallsBack he u.name_safe hinits, recoverFromPeers, hpending, hrecord]
    simp only [Option.bind_some, FileRead.of, hread, hrebuild]
    exact hunseal

end Distributed

def oneByteUpload : SealedUpload where
  name := ascii "a"
  stream := oneByteStream
  tag := toHex (oneByteCrypto.hmac [] [])
  name_safe := sampleUpload.name_safe
  tag_hex := .inr (by decide +kernel)
  stream_lt := by decide +kernel

def oneByteDigest (b : Bytes) : Bytes :=
  if b = oneByteUpload.shard .d0 then
    [60, 161, 242, 0, 149, 175, 95, 182, 93, 167, 133, 218, 29, 72, 55, 254, 250, 81, 84, 12, 0,
     88, 216, 58, 199, 77, 233, 221, 255, 37, 89, 134]
  else if b = oneByteUpload.shard .d1 then
    [24, 182, 229, 37, 182, 65, 90, 68, 230, 219, 233, 154, 77, 112, 92, 159, 96, 79, 16, 58,
     128, 224, 137, 179, 91, 71, 236, 18, 149, 63, 23, 11]
  else if b = oneByteUpload.shard .p0 then
    [113, 141, 25, 77, 19, 165, 239, 170, 122, 54, 137, 33, 165, 248, 111, 60, 68, 78, 213, 66,
     19, 166, 117, 186, 38, 211, 173, 147, 161, 71, 198, 139]
  else if b = oneByteUpload.shard .p1 then
    [216, 35, 239, 124, 59, 127, 188, 42, 21, 251, 44, 254, 47, 163, 76, 228, 1, 249, 234, 98,
     201, 116, 186, 87, 213, 109, 48, 105, 200, 28, 221, 92]
  else List.replicate 32 0

def oneByteHash : Sha256 where
  digest := oneByteDigest
  length_digest b := by
    unfold oneByteDigest
    split_ifs <;> rfl

theorem oneByteHash_collisionFree (i : Shard) :
    oneByteHash.CollisionFree (oneByteUpload.shard i) := by
  have hapart : ∀ i ∈ [Shard.d0, .d1, .p0, .p1],
      oneByteDigest (oneByteUpload.shard i) ≠ List.replicate 32 0 ∧
      ∀ j ∈ [Shard.d0, .d1, .p0, .p1], oneByteDigest (oneByteUpload.shard j) =
        oneByteDigest (oneByteUpload.shard i) → oneByteUpload.shard j = oneByteUpload.shard i := by
    decide +kernel
  have hmem (i : Shard) : i ∈ [Shard.d0, .d1, .p0, .p1] := by cases i <;> decide
  obtain ⟨hzero, hinj⟩ := hapart i (hmem i)
  intro c h
  by_cases hc : ∃ j, c = oneByteUpload.shard j
  · obtain ⟨j, rfl⟩ := hc
    exact hinj j (hmem j) h
  · push Not at hc
    have hother : oneByteHash.digest c = List.replicate 32 0 := by
      simp only [oneByteHash, oneByteDigest, hc, ↓reduceIte]
    exact absurd (h.symm.trans hother) hzero

def oneByteDownload : DownloadEvent where
  inits := true
  reachable := true
  connects := true
  incoming := sendLine (ascii "DATA 70") ++ oneByteStream ++ ascii "BYE"
  write := .done
  record := .done
  fetch _ := ⟨false, [], .done, .done⟩
  join := .buffered
  passphrase := .ok (ascii "pw")
  storage := .buffered

/-- The server is offline; the second and the last peer return their shards, the first one lies and
the third one is gone. -/
def oneByteRecovery : DownloadEvent :=
  { oneByteDownload with
    reachable := false
    fetch
      | 0 => ⟨true, sendLine (ascii "DATA 2") ++ [9, 9], .done, .done⟩
      | 1 => ⟨true, sendLine (ascii "DATA 35") ++ oneByteUpload.shard .d1, .done, .done⟩
      | 3 => ⟨true, sendLine (ascii "DATA 35") ++ oneByteUpload.shard .p1, .done, .done⟩
      | _ => ⟨false, [], .done, .done⟩ }

theorem cmdDownload_distributed_oneByte :
    cmdDownload Interop.sampleCrypto oneByteHash oneByteRecovery (ascii "a")
      (distRun oneByteHash oneByteUpload sampleRoute World.empty
        (List.replicate 7 sampleDist)).1.pending none = (0, some (ascii "A")) := by
  have hlen : (ascii "A").length < Double.limit := by decide
  have hsalt : (List.replicate 16 (7 : UInt8)).length = Config.kSaltLen := rfl
  have hivs : ∀ _ : ℕ, (List.replicate 12 (9 : UInt8)).length = Config.kIvLen := fun _ => rfl
  have hsealed : (sealFile Interop.sampleCrypto (Interop.sealRun (ascii "pw") (List.replicate 16 7)
      (fun _ => List.replicate 12 9) hlen)).map SealedFile.stream = .ok oneByteUpload.stream := by
    decide +kernel +revert
  obtain ⟨f, hseal, hstream⟩ := except_map_eq_ok hsealed
  have hdist : (distRun oneByteHash oneByteUpload sampleRoute World.empty
      (List.replicate 7 sampleDist)).2 = .finished 0 [.d0, .d1, .p0, .p1] := by decide +kernel
  have hreturns {i : Shard} : Fetch.Returns ⟨true, sendLine (ascii "DATA 35") ++
      oneByteUpload.shard i, .done, .done⟩ (oneByteUpload.shard i) := by
    have hline : sp kData (Decimal.text (oneByteUpload.shard i).length) = ascii "DATA 35" := by
      cases i <;> decide +kernel
    exact ⟨rfl, ⟨[], by rw [hline, List.append_nil]⟩, rfl, rfl⟩
  exact (cmdDownload_distributed Interop.sampleCrypto_same hlen hsalt hivs hseal hstream.symm
    oneByteHash_collisionFree hdist (e := oneByteRecovery) (.inl rfl) rfl
    JoinStorage.buffered_sound OpenStorage.buffered_sound none).2 (by decide) rfl rfl 1 3 .d1 .p1
    (by decide) rfl rfl hreturns hreturns

end PersonalCloud
