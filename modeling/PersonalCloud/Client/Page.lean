import PersonalCloud.Core.Stream
import PersonalCloud.Library.Double

/-! The encrypted container as the page in the browser writes and reads it. Its numbers are doubles,
and a passphrase is given by its UTF-8 bytes. -/
namespace PersonalCloud

/-- What WebCrypto computes; `none` stands for a promise that is rejected. -/
structure WebCrypto where
  /-- PBKDF2 to 256 bits, from passphrase, salt and iterations. -/
  deriveBits : Bytes → Bytes → ℕ → Option Bytes
  /-- AES-GCM with key, iv and additional data. -/
  encrypt : Bytes → Bytes → Bytes → Bytes → Option Bytes
  decrypt : Bytes → Bytes → Bytes → Bytes → Option Bytes

namespace Page

def BLOCK_SIZE : ℕ := 1048576
def ITERATIONS : ℕ := 100000
def SALT_LEN : ℕ := 16
def IV_LEN : ℕ := 12
def TAG_LEN : ℕ := 16
def HEADER_LEN : ℕ := 37
def MAGIC : Bytes := [80, 67, 83, 49]
def VERSION : UInt8 := 1
def CONTENT_LABEL : Bytes := ascii "pcs-content-v1"

def le32 (value : ℕ) : Bytes := LittleEndian.put 4 value
def le64 (value : ℕ) : Bytes := LittleEndian.put 8 value
def readLe32 (bytes : Bytes) (start : ℕ) : ℕ := LittleEndian.get 4 (bytes.drop start)
def readLe64 (bytes : Bytes) (start : ℕ) : ℕ := Double.ofNat (LittleEndian.get 8 (bytes.drop start))

/-- `Blob.slice` takes an offset that is no safe integer for the largest one. -/
def slice (blob : Bytes) (start stop : ℕ) : Bytes :=
  (blob.take (min stop (Double.limit - 1))).drop (min start (Double.limit - 1))

def contentKey (W : WebCrypto) (pass salt : Bytes) (iterations : ℕ) : Option Bytes :=
  W.deriveBits pass (CONTENT_LABEL ++ salt) iterations

def buildHeader (salt : Bytes) (plainSize : ℕ) : Bytes :=
  MAGIC ++ [VERSION] ++ le32 ITERATIONS ++ salt ++ le32 BLOCK_SIZE ++ le64 plainSize

def blockAad (header : Bytes) (index : ℕ) : Bytes := header ++ le64 index

/-- The loop of `sealFile`, with the size of the file, how far it has come and the index of the
block. A round takes at least one byte, so there are no more rounds than bytes. -/
def sealLoop (W : WebCrypto) (key header : Bytes) (ivs : ℕ → Bytes) (file : Bytes) (size : ℕ) :
    ℕ → ℕ → ℕ → Option Bytes
  | 0, _, _ => some []
  | fuel + 1, done, index =>
      if done < size then
        let stop := min (Double.add done BLOCK_SIZE) size
        match W.encrypt key (ivs index) (blockAad header index) (slice file done stop) with
        | none => none
        | some sealed =>
            let cut := sealed.length - TAG_LEN
            (sealLoop W key header ivs file size fuel stop (index + 1)).map fun parts =>
              ivs index ++ le32 cut ++ sealed.take cut ++ sealed.drop cut ++ parts
      else some []

def sealFile (W : WebCrypto) (pass file salt : Bytes) (ivs : ℕ → Bytes) : Option Bytes :=
  match contentKey W pass salt ITERATIONS with
  | none => none
  | some key =>
      let size := Double.ofNat file.length
      let header := buildHeader salt size
      (sealLoop W key header ivs file size size 0 0).map fun parts => header ++ parts

/-- The loop of `openBlob`: the number of blocks to go, the index of the next one, its offset, the
size recovered so far and the parts. -/
def openLoop (W : WebCrypto) (key header blob : Bytes) :
    ℕ → ℕ → ℕ → ℕ → Bytes → Except String (Bytes × ℕ)
  | 0, _, _, done, parts => .ok (parts, done)
  | n + 1, index, start, done, parts =>
      let head := slice blob start (Double.add (Double.add start IV_LEN) 4)
      if head.length ≠ IV_LEN + 4 then .error "file ends mid-block"
      else
        let iv := head.take IV_LEN
        let length := readLe32 head IV_LEN
        let start := Double.add start (IV_LEN + 4)
        let sealed := slice blob start (Double.add (Double.add start length) TAG_LEN)
        if sealed.length ≠ length + TAG_LEN then .error "file ends mid-block"
        else
          match W.decrypt key iv (blockAad header index) sealed with
          | none => .error "wrong passphrase, or the file was altered"
          | some plain =>
              openLoop W key header blob n (index + 1) (Double.add start (length + TAG_LEN))
                (Double.add done plain.length) (parts ++ plain)

/-- The rounds of the loop. A block size of zero makes their number infinite; the blob ends before
it has had a round for each byte. -/
def rounds (blob : Bytes) (plainSize blockSize : ℕ) : ℕ :=
  if plainSize = 0 then 0
  else if blockSize = 0 then blob.length + 1
  else Double.ceilDiv plainSize blockSize

def openBlob (W : WebCrypto) (pass blob : Bytes) : Except String Bytes :=
  let header := slice blob 0 HEADER_LEN
  if header.length ≠ HEADER_LEN then .error "file is too short"
  else if header.take 4 ≠ MAGIC then .error "not an encrypted file"
  else if header.getD 4 0 ≠ VERSION then .error "unsupported format version"
  else
    let iterations := readLe32 header 5
    let salt := (header.drop 9).take SALT_LEN
    let blockSize := readLe32 header (9 + SALT_LEN)
    let plainSize := readLe64 header (13 + SALT_LEN)
    match contentKey W pass salt iterations with
    | none => .error "OperationError"
    | some key =>
        match openLoop W key header blob (rounds blob plainSize blockSize) 0 HEADER_LEN 0 [] with
        | .error e => .error e
        | .ok (parts, done) =>
            if done ≠ plainSize then .error "recovered size does not match" else .ok parts

def DEDUP_LABEL : Bytes := ascii "pcs-dedup-v1"

/-- The largest file that is tagged, as the tag takes the whole file in memory. -/
def DEDUP_LIMIT : ℕ := 64 * 1024 * 1024

def hexText (b : UInt8) : Bytes := (Nat.toDigits 16 b.toNat).map fun c => UInt8.ofNat c.toNat

def padStart (width : ℕ) (fill : UInt8) (text : Bytes) : Bytes :=
  List.replicate (width - text.length) fill ++ text

def toHex (bytes : Bytes) : Bytes := bytes.flatMap fun b => padStart 2 48 (hexText b)

/-- The label twice: as label and as salt. -/
def dedupKey (W : WebCrypto) (pass : Bytes) : Option Bytes :=
  W.deriveBits pass (DEDUP_LABEL ++ DEDUP_LABEL) ITERATIONS

/-- The tag of a file, empty for one that is too large; `sign` is WebCrypto's HMAC. -/
def dedupTagFor (W : WebCrypto) (sign : Bytes → Bytes → Option Bytes) (pass file : Bytes) :
    Option Bytes :=
  if DEDUP_LIMIT < Double.ofNat file.length then some []
  else
    match dedupKey W pass with
    | none => none
    | some key => (sign key file).map toHex

/-- Offsets that are safe integers cut a piece out exactly. -/
theorem slice_eq {pre piece : Bytes} (rest : Bytes) (h : pre.length + piece.length < Double.limit) :
    slice (pre ++ (piece ++ rest)) pre.length (pre.length + piece.length) = piece := by
  have hstop : min (pre.length + piece.length) (Double.limit - 1) = pre.length + piece.length := by
    omega
  have hstart : min pre.length (Double.limit - 1) = pre.length := by omega
  rw [slice, hstop, hstart, ← List.append_assoc, ← List.length_append, List.take_left',
    List.drop_left']
  · rfl
  · rfl

theorem slice_length_lt (blob : Bytes) {start : ℕ} (stop : ℕ) (h : start < Double.limit) :
    start + (slice blob start stop).length < Double.limit := by
  have hstart : min start (Double.limit - 1) = start := by omega
  rw [slice, hstart, List.length_drop, List.length_take]
  omega

end Page

end PersonalCloud
