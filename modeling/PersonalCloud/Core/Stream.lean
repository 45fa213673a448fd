import PersonalCloud.Core.Cipher
import PersonalCloud.Library.LittleEndian
import PersonalCloud.Library.OutStream
import PersonalCloud.Library.Slices

/-! The encrypted container: a header and a sequence of sealed blocks, each authenticated against
the whole header and its own index. Error texts that end in a path are given without it. -/
namespace PersonalCloud

namespace Config

def kStreamVersion : UInt8 := 1
def kStreamMagic : Bytes := ascii "PCS1"

def kBlockSize : UInt32 := 1048576

end Config

/-- Magic, version, iterations, salt, block size and plaintext size. -/
def kHeaderLen : ℕ := 4 + 1 + 4 + Config.kSaltLen + 4 + 8

structure StreamHeader where
  iterations : UInt32
  salt : Bytes
  blockSize : UInt32
  plainSize : UInt64
  deriving DecidableEq

def putU32 (value : UInt32) : Bytes := LittleEndian.put 4 value.toNat
def putU64 (value : UInt64) : Bytes := LittleEndian.put 8 value.toNat
def getU32 (p : Bytes) : UInt32 := UInt32.ofNat (LittleEndian.get 4 p)
def getU64 (p : Bytes) : UInt64 := UInt64.ofNat (LittleEndian.get 8 p)

def buildHeader (h : StreamHeader) : Bytes :=
  Config.kStreamMagic ++ [Config.kStreamVersion] ++ putU32 h.iterations ++ h.salt ++
    putU32 h.blockSize ++ putU64 h.plainSize

def parseHeader (raw : Bytes) : Except String StreamHeader :=
  if raw.length ≠ kHeaderLen then .error "truncated stream header"
  else if raw.take 4 ≠ Config.kStreamMagic then .error "not a PCS stream (bad magic)"
  else if raw.getD 4 0 ≠ Config.kStreamVersion then .error "unsupported stream version"
  else
    let out : StreamHeader :=
      ⟨getU32 (raw.drop 5), (raw.drop 9).take Config.kSaltLen, getU32 (raw.drop (9 + Config.kSaltLen)),
        getU64 (raw.drop (13 + Config.kSaltLen))⟩
    if out.blockSize = 0 ∨ 64 * 1024 * 1024 < out.blockSize then
      .error "implausible block size in header"
    else if out.iterations = 0 then .error "invalid iteration count in header"
    else .ok out

def blockAad (header : Bytes) (index : ℕ) : Bytes := header ++ putU64 (UInt64.ofNat index)

/-- The sum wraps for a size close to `2 ^ 64`. -/
def blockCount (plainSize : UInt64) (blockSize : UInt32) : UInt64 :=
  if plainSize = 0 then 0 else (plainSize + blockSize.toUInt64 - 1) / blockSize.toUInt64

structure SealedBlock where
  iv : Bytes
  aad : Bytes
  plain : Bytes
  cipher : Bytes
  tag : Bytes

def SealedBlock.bytes (b : SealedBlock) : Bytes :=
  b.iv ++ putU32 (UInt32.ofNat b.cipher.length) ++ b.cipher ++ b.tag

/-- The block loop of `sealFile`; the first list holds the lengths still to be read. -/
def sealBlocks (C : Crypto) (key header : Bytes) (ivs : ℕ → Bytes) :
    List ℕ → ℕ → Bytes → Except String (List SealedBlock)
  | [], _, _ => .ok []
  | want :: wants, index, rest =>
      if (rest.take want).length ≠ want then
        .error "short read (did the file change while it was sealed?)"
      else
        match C.aesGcmSeal key (ivs index) (blockAad header index) (rest.take want) with
        | none => .error "encryption failed"
        | some (cipher, tag) => do
            let blocks ← sealBlocks C key header ivs wants (index + 1) (rest.drop want)
            .ok (⟨ivs index, blockAad header index, rest.take want, cipher, tag⟩ :: blocks)

/-- One call of `sealFile`: the size of the plaintext file and what is read from it afterwards,
and the bytes the random generator gives for the salt and the block ivs. File sizes stay below
`2 ^ 63`, the range of file offsets. -/
structure SealRun where
  passphrase : Bytes
  plainSize : UInt64
  content : Bytes
  salt : Bytes
  ivs : ℕ → Bytes
  plainSize_lt : plainSize.toNat < 2 ^ 63

namespace SealRun

def header (r : SealRun) : StreamHeader :=
  ⟨Config.kKdfIterations, r.salt, Config.kBlockSize, r.plainSize⟩

def plain (r : SealRun) : Bytes := r.content.take r.plainSize.toNat

def key (C : Crypto) (r : SealRun) : Bytes :=
  C.deriveKey r.passphrase r.salt Config.kContentKeyLabel Config.kKdfIterations

end SealRun

structure SealedFile where
  blocks : List SealedBlock
  stream : Bytes
  dedupTag : Bytes

/-- Seals a file, with local storage that does not fail. -/
def sealFile (C : Crypto) (r : SealRun) : Except String SealedFile :=
  if r.salt.length ≠ Config.kSaltLen then .error "no entropy available for salt"
  else if (r.key C).length ≠ Config.kKeyLen then .error "key derivation failed"
  else do
    let raw := buildHeader r.header
    let blocks ← sealBlocks C (r.key C) raw r.ivs
      (Slices.lengths Config.kBlockSize.toNat r.plainSize.toNat) 0 r.content
    .ok ⟨blocks, raw ++ blocks.flatMap SealedBlock.bytes,
      toHex (C.hmac (C.deriveDedupKey r.passphrase) (blocks.flatMap SealedBlock.plain))⟩

/-- What local storage does while a stream is opened: the open of the output, the write of each
block and the close. -/
structure OpenStorage where
  opensOutput : Bool
  writes : ℕ → FileEvent
  closing : FileEvent

structure OpenStorage.Sound (J : OpenStorage) : Prop where
  opensOutput : J.opensOutput = true
  writes : ∀ k, (J.writes k).ok = true
  closing : J.closing.ok = true

/-- The block loop of `openFile`: the number of blocks to go, the index of the next one, the
bytes recovered so far, the unread stream and the output. -/
def openBlocks (C : Crypto) (J : OpenStorage) (key raw : Bytes) (blockSize : UInt32) :
    ℕ → ℕ → UInt64 → Bytes → OutStream UInt8 → Except String (UInt64 × OutStream UInt8)
  | 0, _, done, _, out => .ok (done, out)
  | n + 1, index, done, rest, out =>
      if rest.length < Config.kIvLen + 4 then .error "stream ends in the middle of a block"
      else
        let iv := rest.take Config.kIvLen
        let cipherLen := getU32 (rest.drop Config.kIvLen)
        let rest := rest.drop (Config.kIvLen + 4)
        if blockSize < cipherLen then .error "block claims to be larger than the header allows"
        else if rest.length < cipherLen.toNat + Config.kTagLen then
          .error "stream ends in the middle of a block"
        else
          let cipher := rest.take cipherLen.toNat
          let tag := (rest.drop cipherLen.toNat).take Config.kTagLen
          match C.aesGcmOpen key iv (blockAad raw index) cipher tag with
          | none => .error "authentication failed (wrong passphrase or altered data)"
          | some plain =>
              let out := out.write (J.writes index) plain
              if out.good = false then .error "write failed (disk full?)"
              else openBlocks C J key raw blockSize n (index + 1)
                (done + UInt64.ofNat plain.length) (rest.drop (cipherLen.toNat + Config.kTagLen)) out

/-- The result of opening `stream` and the destination afterwards, which held `dest` before.
The close of the output is not checked; a failure after the output was opened removes it. -/
def openFile (C : Crypto) (J : OpenStorage) (stream passphrase : Bytes) (dest : Option Bytes) :
    Except String Unit × Option Bytes :=
  if stream.length < kHeaderLen then (.error "stream is too short to contain a header", dest)
  else
    let raw := stream.take kHeaderLen
    match parseHeader raw with
    | .error e => (.error e, dest)
    | .ok h =>
        let key := C.deriveKey passphrase h.salt Config.kContentKeyLabel h.iterations
        if key.length ≠ Config.kKeyLen then (.error "key derivation failed", dest)
        else if J.opensOutput = false then (.error "cannot write", dest)
        else
          match openBlocks C J key raw h.blockSize (blockCount h.plainSize h.blockSize).toNat 0 0
              (stream.drop kHeaderLen) OutStream.opened with
          | .error e => (.error e, none)
          | .ok (done, out) =>
              if done ≠ h.plainSize then (.error "recovered size does not match the header", none)
              else (.ok (), some (out.close J.closing))

theorem getU32_putU32_append (v : UInt32) (rest : Bytes) : getU32 (putU32 v ++ rest) = v := by
  rw [getU32, putU32, LittleEndian.get_put_append v.toNat_lt, UInt32.ofNat_toNat]

theorem getU64_putU64 (v : UInt64) : getU64 (putU64 v) = v := by
  rw [getU64, putU64, LittleEndian.get_put v.toNat_lt, UInt64.ofNat_toNat]

theorem putU64_inj {v w : UInt64} (h : putU64 v = putU64 w) : v = w := by
  rw [← getU64_putU64 v, h, getU64_putU64]

theorem buildHeader_length {h : StreamHeader} (hsalt : h.salt.length = Config.kSaltLen) :
    (buildHeader h).length = kHeaderLen := by
  have hmagic : Config.kStreamMagic.length = 4 := by decide
  simp only [buildHeader, putU32, putU64, List.length_append, LittleEndian.put_length, hsalt,
    hmagic, List.length_cons, List.length_nil, kHeaderLen]

theorem parseHeader_buildHeader {h : StreamHeader} (hsalt : h.salt.length = Config.kSaltLen)
    (hblock : h.blockSize ≠ 0) (hmax : h.blockSize ≤ 64 * 1024 * 1024)
    (hiter : h.iterations ≠ 0) : parseHeader (buildHeader h) = .ok h := by
  have hmagic : Config.kStreamMagic.length = 4 := by decide
  have hu32 (v : UInt32) : (putU32 v).length = 4 := LittleEndian.put_length 4 _
  have hraw : buildHeader h = Config.kStreamMagic ++ ([Config.kStreamVersion] ++ (putU32 h.iterations
      ++ (h.salt ++ (putU32 h.blockSize ++ putU64 h.plainSize)))) := by
    simp only [buildHeader, List.append_assoc]
  have h4 : (buildHeader h).drop 4 = [Config.kStreamVersion] ++ (putU32 h.iterations
      ++ (h.salt ++ (putU32 h.blockSize ++ putU64 h.plainSize))) := by
    rw [hraw, List.drop_left' hmagic]
  have h5 : (buildHeader h).drop 5 = putU32 h.iterations
      ++ (h.salt ++ (putU32 h.blockSize ++ putU64 h.plainSize)) := by
    rw [show 5 = 4 + 1 from rfl, ← List.drop_drop, h4]
    rfl
  have h9 : (buildHeader h).drop 9 = h.salt ++ (putU32 h.blockSize ++ putU64 h.plainSize) := by
    rw [show 9 = 5 + 4 from rfl, ← List.drop_drop, h5, List.drop_left' (hu32 _)]
  have h25 : (buildHeader h).drop (9 + Config.kSaltLen) =
      putU32 h.blockSize ++ putU64 h.plainSize := by
    rw [← List.drop_drop, h9, List.drop_left' hsalt]
  have h29 : (buildHeader h).drop (13 + Config.kSaltLen) = putU64 h.plainSize := by
    rw [show 13 + Config.kSaltLen = 9 + Config.kSaltLen + 4 from rfl, ← List.drop_drop, h25,
      List.drop_left' (hu32 _)]
  have htake : (buildHeader h).take 4 = Config.kStreamMagic := by rw [hraw, List.take_left' hmagic]
  have hversion : (buildHeader h).getD 4 0 = Config.kStreamVersion := by
    have hget : (buildHeader h)[4]? = ((buildHeader h).drop 4)[0]? := by simp
    rw [List.getD_eq_getElem?_getD, hget, h4]
    rfl
  have hle : ¬ 64 * 1024 * 1024 < h.blockSize := UInt32.not_lt.mpr hmax
  simp only [parseHeader, buildHeader_length hsalt, ne_eq, not_true_eq_false, ↓reduceIte, htake,
    hversion, h5, h9, h25, h29, getU32_putU32_append, getU64_putU64, List.take_left' hsalt, hblock,
    hiter, hle, or_self]

theorem blockAad_inj {header header' : Bytes} {i j : ℕ} (hlen : header.length = header'.length)
    (hi : i < 2 ^ 64) (hj : j < 2 ^ 64) (h : blockAad header i = blockAad header' j) :
    header = header' ∧ i = j := by
  obtain ⟨hh, hij⟩ := List.append_inj h hlen
  have := congrArg UInt64.toNat (putU64_inj hij)
  rw [UInt64.toNat_ofNat_of_lt' hi, UInt64.toNat_ofNat_of_lt' hj] at this
  exact ⟨hh, this⟩

/-- Below the range of file offsets the block count does not wrap. -/
theorem blockCount_toNat {plainSize : UInt64} (h : plainSize.toNat < 2 ^ 63) :
    (blockCount plainSize Config.kBlockSize).toNat =
      (Slices.lengths Config.kBlockSize.toNat plainSize.toNat).length := by
  have hblock : Config.kBlockSize.toUInt64.toNat = 1048576 := by decide
  have hblock' : Config.kBlockSize.toNat = 1048576 := by decide
  rw [Slices.lengths_length (by decide), hblock', blockCount]
  split_ifs with h0
  · simp [h0]
  · have hpos : 0 < plainSize.toNat := by
      rcases Nat.eq_zero_or_pos plainSize.toNat with hz | hz
      · exact absurd (UInt64.toNat_inj.mp hz) h0
      · exact hz
    rw [UInt64.toNat_div, hblock, UInt64.toNat_sub, UInt64.toNat_add, hblock]
    simp only [UInt64.reduceToNat]
    omega

section Loops

variable {C : Crypto} {J : OpenStorage} {key raw : Bytes}

/-- One block for each piece of the plaintext, bound to the header and its index. -/
theorem sealBlocks_ok {ivs : ℕ → Bytes} {wants : List ℕ} {index : ℕ} {rest : Bytes}
    {blocks : List SealedBlock} (h : sealBlocks C key raw ivs wants index rest = .ok blocks) :
    blocks.length = wants.length ∧ blocks.flatMap SealedBlock.plain = rest.take wants.sum ∧
    ∀ k b, blocks[k]? = some b → b.aad = blockAad raw (index + k) ∧
      C.aesGcmSeal key b.iv b.aad b.plain = some (b.cipher, b.tag) := by
  induction wants generalizing index rest blocks with
  | nil =>
    simp only [sealBlocks, Except.ok.injEq] at h
    subst h
    simp
  | cons want wants ih =>
    simp only [sealBlocks] at h
    split_ifs at h
    split at h
    · contradiction
    · next cipher tag hseal =>
      cases hrest : sealBlocks C key raw ivs wants (index + 1) (rest.drop want) with
      | error e =>
        rw [hrest] at h
        contradiction
      | ok tail =>
        rw [hrest] at h
        obtain ⟨hlen, hplain, hall⟩ := ih hrest
        have hb : blocks = ⟨ivs index, blockAad raw index, rest.take want, cipher, tag⟩ :: tail :=
          (Except.ok.inj h).symm
        subst hb
        refine ⟨by simp [hlen], ?_, ?_⟩
        · rw [List.flatMap_cons, hplain, List.sum_cons, List.take_add]
        · intro k b hk
          cases k with
          | zero =>
            obtain rfl : _ = b := Option.some.inj hk
            exact ⟨rfl, hseal⟩
          | succ k =>
            have hindex : index + (k + 1) = index + 1 + k := by omega
            rw [hindex]
            exact hall k b (by simpa using hk)

end Loops

theorem sealFile_ok {C : Crypto} {r : SealRun} {f : SealedFile} (h : sealFile C r = .ok f) :
    r.salt.length = Config.kSaltLen ∧ (r.key C).length = Config.kKeyLen ∧
    f.blocks.length = (blockCount r.plainSize Config.kBlockSize).toNat ∧
    f.blocks.flatMap SealedBlock.plain = r.plain ∧
    ∀ k b, f.blocks[k]? = some b → b.aad = blockAad (buildHeader r.header) k ∧
      C.aesGcmSeal (r.key C) b.iv b.aad b.plain = some (b.cipher, b.tag) := by
  unfold sealFile at h
  split_ifs at h with hsalt hkey
  simp only [ne_eq, not_not] at hsalt hkey
  cases hblocks : sealBlocks C (r.key C) (buildHeader r.header) r.ivs
      (Slices.lengths Config.kBlockSize.toNat r.plainSize.toNat) 0 r.content with
  | error e =>
    simp only [hblocks] at h
    contradiction
  | ok blocks =>
    simp only [hblocks] at h
    obtain rfl := Except.ok.inj h
    obtain ⟨hlen, hplain, hall⟩ := sealBlocks_ok hblocks
    rw [Slices.lengths_sum (by decide)] at hplain
    refine ⟨hsalt, hkey, ?_, hplain, ?_⟩
    · rw [blockCount_toNat r.plainSize_lt, ← hlen]
    · simpa using hall

def oneByteRun : SealRun where
  passphrase := ascii "pw"
  plainSize := 1
  content := ascii "A"
  salt := List.replicate 16 7
  ivs _ := List.replicate 12 9
  plainSize_lt := by decide

/-- The values of the primitives at the inputs that arise for `oneByteRun`. -/
def oneByteCrypto : Crypto where
  pbkdf2 passphrase salt iterations :=
    if passphrase = ascii "pw" ∧ salt = Config.kContentKeyLabel ++ List.replicate 16 7 ∧
        iterations = Config.kKdfIterations then
      some [118, 218, 28, 149, 86, 208, 234, 98, 7, 1, 145, 174, 36, 231, 224, 203, 63, 218, 90,
        232, 87, 168, 150, 170, 251, 172, 224, 11, 149, 166, 27, 35]
    else none
  gcmEncrypt _ _ _ _ :=
    some ([78], [121, 177, 242, 82, 156, 243, 176, 221, 82, 62, 146, 65, 70, 155, 153, 183])
  gcmDecrypt key iv aad cipher tag :=
    if key = [118, 218, 28, 149, 86, 208, 234, 98, 7, 1, 145, 174, 36, 231, 224, 203, 63, 218, 90,
          232, 87, 168, 150, 170, 251, 172, 224, 11, 149, 166, 27, 35] ∧
        iv = List.replicate 12 9 ∧ aad = blockAad (buildHeader oneByteRun.header) 0 ∧
        cipher = [78] ∧
        tag = [121, 177, 242, 82, 156, 243, 176, 221, 82, 62, 146, 65, 70, 155, 153, 183] then
      some (ascii "A")
    else none
  hmac _ _ := [71, 129, 132, 191, 215, 137, 218, 246, 87, 111, 243, 132, 255, 136, 217, 27, 178,
    151, 150, 62, 235, 229, 174, 187, 29, 226, 183, 203, 50, 88, 221, 182]

def oneByteBlock : SealedBlock where
  iv := List.replicate 12 9
  aad := blockAad (buildHeader oneByteRun.header) 0
  plain := ascii "A"
  cipher := [78]
  tag := [121, 177, 242, 82, 156, 243, 176, 221, 82, 62, 146, 65, 70, 155, 153, 183]

def oneByteStream : Bytes := buildHeader oneByteRun.header ++ oneByteBlock.bytes

theorem sealFile_oneByteRun : ∃ f, sealFile oneByteCrypto oneByteRun = .ok f ∧
    f.blocks = [oneByteBlock] ∧ f.stream = oneByteStream :=
  ⟨_, rfl, rfl, by decide +kernel⟩

def OpenStorage.buffered : OpenStorage := ⟨true, fun _ => .accept 0, .accept 0⟩

theorem OpenStorage.buffered_sound : OpenStorage.buffered.Sound := ⟨rfl, fun _ => rfl, rfl⟩

end PersonalCloud
