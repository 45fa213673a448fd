import PersonalCloud.Client.Exchange
import PersonalCloud.Core.Cipher
import PersonalCloud.Core.Manifest
import PersonalCloud.Core.ShardFile

/-! The world a client works in: one server, the peers and one pending record; and what the requests
of the client do to it. -/
namespace PersonalCloud

open Proto Channel Remote Store Session

/-- The SHA-256 of a byte string. -/
structure Sha256 where
  digest : Bytes → Bytes
  length_digest : ∀ b, (digest b).length = 32

def Sha256.hex (H : Sha256) (b : Bytes) : Bytes := toHex (H.digest b)

/-- Nothing else has the digest of `b`. -/
def Sha256.CollisionFree (H : Sha256) (b : Bytes) : Prop := ∀ c, H.digest c = H.digest b → c = b

/-- A `host:port`, without white space. -/
structure Address where
  bytes : Bytes
  isField : Manifest.IsField bytes

structure Account where
  user : Bytes
  isValid : isValidUsername user = true

/-- A sealed file on its way: its name, the stream and the dedup tag, which is empty when the tag
could not be computed. -/
structure SealedUpload where
  name : Bytes
  stream : Bytes
  tag : Bytes
  name_safe : isSafeName name = true
  tag_hex : tag = [] ∨ isSafeChunkId tag = true
  stream_lt : stream.length < 2 ^ 63

def SealedUpload.shard (u : SealedUpload) (i : Shard) : Bytes := (splitStream u.stream).1 i

theorem SealedUpload.shard_length_eq (u : SealedUpload) (i j : Shard) :
    (u.shard i).length = (u.shard j).length :=
  (splitStream_length u.stream i).trans (splitStream_length u.stream j).symm

/-- The server's store, the stores of the peers by address, and the content of the manifest file
of the one name in question. A machine that is both has files and chunks apart, so it may stand
here twice. -/
structure World where
  server : Disk
  peers : Bytes → Disk
  pending : Option Bytes

namespace World

def askServer (a : Account) (w : World) (env : SessionEnv) (l : Link) (line body : Bytes) :
    World × Option Bytes :=
  let r := exchange { env with disk := w.server } ⟨a.user, true, false⟩ l line body
  ({ w with server := w.server.run r.1 }, r.2)

def askPeer (w : World) (env : SessionEnv) (l : Link) (peer line body : Bytes) :
    World × Option Bytes :=
  let r := exchange { env with disk := w.peers peer } ⟨[], false, true⟩ l line body
  ({ w with peers := Function.update w.peers peer ((w.peers peer).run r.1) }, r.2)

end World

def World.chunk (w : World) (peer id : Bytes) : Option Bytes :=
  (w.peers peer).content [kChunksDir, id]

def SealedUpload.fileOn (u : SealedUpload) (a : Account) (d : Disk) : Option Bytes :=
  (filePath a.user (wireName u.name)).bind d.content

def SealedUpload.ShownOn (u : SealedUpload) (a : Account) (d : Disk) : Prop :=
  u.tag ≠ [] ∧ ShowsTag d a.user (wireName u.name) u.tag

/-- The server's file under the name of an upload has its content. What a stream holds is left open:
it may be the plaintext it opens to, or with `id` the stream itself. -/
def SealedUpload.StoredOn {κ : Type*} (content : Bytes → κ) (u : SealedUpload) (a : Account)
    (d : Disk) : Prop :=
  (u.fileOn a d).map content = some (content u.stream)

instance {κ : Type*} [DecidableEq κ] (content : Bytes → κ)
    (u : SealedUpload) (a : Account) (d : Disk) : Decidable (u.StoredOn content a d) :=
  inferInstanceAs (Decidable ((u.fileOn a d).map content = some (content u.stream)))

theorem SealedUpload.storedOn_of_fileOn {κ : Type*} {content : Bytes → κ} {u : SealedUpload}
    {a : Account} {d : Disk} (h : u.fileOn a d = some u.stream) : u.StoredOn content a d := by
  rw [StoredOn, h, Option.map_some]

theorem SealedUpload.isTag_tag (u : SealedUpload) : IsTag u.tag := by
  rcases u.tag_hex with htag | htag
  · simp [htag, IsTag]
  · intro c hc
    have hplain := isPlain_of_isSafeChunkId htag c hc
    have hspace := (isWord_of_isSafeChunkId htag).2 c hc
    exact ⟨by simpa [isSpace] using hspace, hplain⟩

theorem isPlain_wireName {name : Bytes} (h : IsPlain name) : IsPlain (wireName name) :=
  fun c hc => h c ((List.dropWhile_sublist _).subset hc)

theorem chunkPath_ne_temp {id random : Bytes} : ([kChunksDir, id] : Path) ≠ tempPath random := by
  have hdir : kChunksDir ≠ kTmpDir := by decide
  simp [tempPath, hdir]

namespace World

variable (w : World) (env : SessionEnv) (l : Link)

theorem chunk_askPeer (peer line body p i : Bytes) :
    (w.askPeer env l peer line body).1.chunk p i =
      if p = peer then ((w.peers peer).run (exchange { env with disk := w.peers peer }
        ⟨[], false, true⟩ l line body).1).content [kChunksDir, i]
      else w.chunk p i := by
  unfold chunk askPeer
  split_ifs with h
  · simp [h]
  · simp [h]

theorem chunk_putChunk (peer : Bytes) {id : Bytes} (hid : isSafeChunkId id = true)
    (content : Bytes) :
    (content.length ≤ Config.kMaxTransferSize.toNat ∧
      ∀ p i, (w.askPeer env l peer (putChunkLine id content.length) content).1.chunk p i =
        if p = peer ∧ i = id then some content else w.chunk p i) ∨
    (putChunkReply (w.askPeer env l peer (putChunkLine id content.length) content).2 ≠ .ok () ∧
      ∀ p i, (w.askPeer env l peer (putChunkLine id content.length) content).1.chunk p i =
        w.chunk p i) := by
  have hput := @exchange_putChunk { env with disk := w.peers peer } ⟨[], false, true⟩ l id hid content
  rcases hput with ⟨hsize, hsteps⟩ | ⟨hreply, htemp⟩
  · refine .inl ⟨hsize, fun p i => ?_⟩
    rw [chunk_askPeer, hsteps]
    by_cases hp : p = peer
    · rw [if_pos hp]
      by_cases hi : i = id
      · rw [if_pos ⟨hp, hi⟩, hi, content_run_rename]
      · have hne : ([kChunksDir, i] : Path) ≠ [kChunksDir, id] := by simpa using hi
        rw [if_neg (fun h => hi h.2), content_run_rename_ne chunkPath_ne_temp hne, chunk, hp]
    · rw [if_neg hp, if_neg (fun h => hp h.1)]
  · refine .inr ⟨hreply, fun p i => ?_⟩
    rw [chunk_askPeer, content_run_temp htemp chunkPath_ne_temp]
    split_ifs with hp
    · rw [chunk, hp]
    · rfl

private theorem chunk_removed (peer id p i : Bytes) :
    (if p = peer then ((w.peers peer).run [.remove [kChunksDir, id]]).content [kChunksDir, i]
      else w.chunk p i) = if p = peer ∧ i = id then none else w.chunk p i := by
  by_cases hp : p = peer
  · rw [if_pos hp]
    by_cases hi : i = id
    · rw [if_pos ⟨hp, hi⟩, hi]
      exact content_remove _ _
    · have hne : ([kChunksDir, i] : Path) ≠ [kChunksDir, id] := by simpa using hi
      rw [if_neg (fun h => hi h.2), chunk, hp]
      exact content_remove_ne hne
  · rw [if_neg hp, if_neg (fun h => hp h.1)]

theorem chunk_delChunk (peer : Bytes) {id : Bytes} (hid : isSafeChunkId id = true) :
    (∀ p i, (w.askPeer env l peer (delChunkLine id) []).1.chunk p i = w.chunk p i) ∨
    ∀ p i, (w.askPeer env l peer (delChunkLine id) []).1.chunk p i =
      if p = peer ∧ i = id then none else w.chunk p i := by
  have hdel := @exchange_delChunk { env with disk := w.peers peer } ⟨[], false, true⟩ l id hid rfl
  rcases hdel with hsteps | hsteps
  · refine .inl fun p i => ?_
    rw [chunk_askPeer, hsteps]
    split_ifs with hp
    · rw [chunk, hp]
      rfl
    · rfl
  · refine .inr fun p i => ?_
    rw [chunk_askPeer, hsteps]
    exact chunk_removed w peer id p i

@[simp] theorem askServer_chunk (a : Account) (line body p i : Bytes) :
    (w.askServer a env l line body).1.chunk p i = w.chunk p i := rfl

@[simp] theorem askServer_pending (a : Account) (line body : Bytes) :
    (w.askServer a env l line body).1.pending = w.pending := rfl

@[simp] theorem askPeer_server (peer line body : Bytes) :
    (w.askPeer env l peer line body).1.server = w.server := rfl

@[simp] theorem askPeer_pending (peer line body : Bytes) :
    (w.askPeer env l peer line body).1.pending = w.pending := rfl

theorem askServer_stat (a : Account) {name : Bytes} (hname : IsPlain name) :
    (w.askServer a env l (statLine name) []).1 = w := by
  simp only [askServer, exchange_stat_steps hname]
  rfl

theorem askServer_putFile (a : Account) {name tag : Bytes} (hname : IsPlain name)
    (htag : IsTag tag) (content : Bytes) :
    (∃ final, filePath a.user (wireName name) = some final ∧
      content.length ≤ Config.kMaxTransferSize.toNat ∧
      (w.askServer a env l (putFileLine name tag content.length) content).1.server =
        w.server.run (uploadSteps (tempPath env.random) final content env.now env.tag a.user
          (wireName name) (wireTag tag))) ∨
    (putFileReply (w.askServer a env l (putFileLine name tag content.length) content).2 ≠ .ok () ∧
      ∃ steps, (∀ st ∈ steps, st.OnTemp env.random) ∧
        (w.askServer a env l (putFileLine name tag content.length) content).1.server =
          w.server.run steps) := by
  rcases @exchange_putFile { env with disk := w.server } ⟨a.user, true, false⟩ l name tag hname htag
    content with ⟨final, hfinal, hsize, hsteps⟩ | ⟨hreply, htemp⟩
  · exact .inl ⟨final, hfinal, hsize, by rw [askServer, hsteps]⟩
  · exact .inr ⟨hreply, _, htemp, rfl⟩

end World

end PersonalCloud
