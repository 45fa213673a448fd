import PersonalCloud.Client.Page

/-! The two implementations of the container: what either writes, both can read. -/
namespace PersonalCloud

/-- OpenSSL and WebCrypto compute the same: PBKDF2, and AES-GCM, which decrypts what it encrypted and
whose tag WebCrypto returns behind the ciphertext. -/
structure SameCrypto (C : Crypto) (W : WebCrypto) : Prop where
  derive : ∀ passphrase salt (iterations : UInt32), iterations ≠ 0 →
    ∃ key, key.length = Config.kKeyLen ∧ C.pbkdf2 passphrase salt iterations = some key ∧
      W.deriveBits passphrase salt iterations.toNat = some key
  encrypt : ∀ key iv aad plain, key.length = Config.kKeyLen → iv.length = Config.kIvLen →
    plain.length ≤ Page.BLOCK_SIZE →
    ∃ cipher tag, cipher.length = plain.length ∧ tag.length = Config.kTagLen ∧
      C.gcmEncrypt key iv aad plain = some (cipher, tag) ∧
      W.encrypt key iv aad plain = some (cipher ++ tag)
  decrypt : ∀ key iv aad plain cipher tag, C.gcmEncrypt key iv aad plain = some (cipher, tag) →
    C.gcmDecrypt key iv aad cipher tag = some plain ∧
    W.decrypt key iv aad (cipher ++ tag) = some plain

namespace Interop

theorem putU32_ofNat {n : ℕ} (h : n < 2 ^ 32) : putU32 (UInt32.ofNat n) = Page.le32 n := by
  rw [putU32, UInt32.toNat_ofNat_of_lt' h, Page.le32]

theorem putU64_ofNat {n : ℕ} (h : n < 2 ^ 64) : putU64 (UInt64.ofNat n) = Page.le64 n := by
  rw [putU64, UInt64.toNat_ofNat_of_lt' h, Page.le64]

theorem blockAad_eq {raw : Bytes} {index : ℕ} (h : index < 2 ^ 64) :
    Page.blockAad raw index = blockAad raw index := by
  rw [blockAad, putU64_ofNat h, Page.blockAad]

theorem buildHeader_eq {salt : Bytes} {n : ℕ} (h : n < 2 ^ 64) :
    Page.buildHeader salt n =
      buildHeader ⟨Config.kKdfIterations, salt, Config.kBlockSize, UInt64.ofNat n⟩ := by
  have hmagic : Page.MAGIC = Config.kStreamMagic := by decide
  have hiter : Page.le32 Page.ITERATIONS = putU32 Config.kKdfIterations := by decide
  have hblock : Page.le32 Page.BLOCK_SIZE = putU32 Config.kBlockSize := by decide
  rw [Page.buildHeader, buildHeader, putU64_ofNat h, hmagic, hiter, hblock]
  rfl

structure Opens (C : Crypto) (W : WebCrypto) (key raw : Bytes) (index : ℕ) (b : SealedBlock) :
    Prop where
  iv : b.iv.length = Config.kIvLen
  cipher : b.cipher.length = b.plain.length
  plain : b.plain.length ≤ Page.BLOCK_SIZE
  tag : b.tag.length = Config.kTagLen
  native : C.aesGcmOpen key b.iv (blockAad raw index) b.cipher b.tag = some b.plain
  web : W.decrypt key b.iv (Page.blockAad raw index) (b.cipher ++ b.tag) = some b.plain

/-- Blocks that both sides open one after the other. -/
def OpensAll (C : Crypto) (W : WebCrypto) (key raw : Bytes) : ℕ → List SealedBlock → Prop
  | _, [] => True
  | index, b :: blocks => Opens C W key raw index b ∧ OpensAll C W key raw (index + 1) blocks

theorem Opens.cipher_lt {C : Crypto} {W : WebCrypto} {key raw : Bytes} {index : ℕ} {b : SealedBlock}
    (h : Opens C W key raw index b) : b.cipher.length < 2 ^ 32 := by
  have := h.plain
  rw [h.cipher]
  exact lt_of_le_of_lt this (by decide)

section Loops

variable {C : Crypto} {W : WebCrypto} {key raw : Bytes} {ivs : ℕ → Bytes}

theorem seal_block (raw : Bytes) (hsame : SameCrypto C W) (hkey : key.length = Config.kKeyLen)
    {iv plain : Bytes} (hiv : iv.length = Config.kIvLen) (hplain : plain.length ≤ Page.BLOCK_SIZE)
    {index : ℕ} (hindex : index < 2 ^ 64) :
    ∃ cipher tag, C.aesGcmSeal key iv (blockAad raw index) plain = some (cipher, tag) ∧
      W.encrypt key iv (Page.blockAad raw index) plain = some (cipher ++ tag) ∧
      Opens C W key raw index ⟨iv, blockAad raw index, plain, cipher, tag⟩ := by
  obtain ⟨cipher, tag, hcipher, htag, hnative, hweb⟩ :=
    hsame.encrypt key iv (blockAad raw index) plain hkey hiv hplain
  obtain ⟨hopen, hopen'⟩ := hsame.decrypt _ _ _ _ _ _ hnative
  refine ⟨cipher, tag, ?_, ?_, hiv, hcipher, hplain, htag, ?_, ?_⟩
  · rw [Crypto.aesGcmSeal, if_neg (by simp [hkey, hiv]), hnative]
  · rw [blockAad_eq hindex, hweb]
  · rw [Crypto.aesGcmOpen, if_neg (by simp [hkey, hiv]), if_neg (by simp [htag]), hopen]
  · rw [blockAad_eq hindex, hopen']

/-- The end of the next block, though the sum may be rounded. -/
theorem min_add_eq {done n : ℕ} (hdone : done ≤ n) (hn : n < Double.limit) :
    min (Double.add done Page.BLOCK_SIZE) n = done + min Page.BLOCK_SIZE (n - done) := by
  rcases le_or_gt (done + Page.BLOCK_SIZE) Double.limit with hle | hgt
  · rw [Double.add_eq hle]
    omega
  · have := Double.limit_le_add hgt.le
    omega

theorem page_block_bytes {C : Crypto} {W : WebCrypto} {index : ℕ} {b : SealedBlock}
    (h : Opens C W key raw index b) :
    b.iv ++ Page.le32 ((b.cipher ++ b.tag).length - Page.TAG_LEN) ++
      (b.cipher ++ b.tag).take ((b.cipher ++ b.tag).length - Page.TAG_LEN) ++
      (b.cipher ++ b.tag).drop ((b.cipher ++ b.tag).length - Page.TAG_LEN) = b.bytes := by
  have hcut : (b.cipher ++ b.tag).length - Page.TAG_LEN = b.cipher.length := by
    rw [List.length_append, h.tag]
    exact Nat.add_sub_cancel _ _
  rw [hcut, List.take_left, List.drop_left, SealedBlock.bytes, putU32_ofNat h.cipher_lt]

/-- The two block loops write the same blocks, and either side opens them. -/
theorem seal_both (raw : Bytes) (fuel : ℕ) (hsame : SameCrypto C W)
    (hkey : key.length = Config.kKeyLen) (hivs : ∀ k, (ivs k).length = Config.kIvLen)
    {file : Bytes} (hfile : file.length < Double.limit)
    {done index : ℕ} (hdone : done ≤ file.length) (hindex : index ≤ done) :
    ∃ blocks, sealBlocks C key raw ivs
        (Slices.lengthsFrom Page.BLOCK_SIZE fuel (file.length - done)) index (file.drop done) =
          .ok blocks ∧
      Page.sealLoop W key raw ivs file file.length fuel done index =
        some (blocks.flatMap SealedBlock.bytes) ∧
      OpensAll C W key raw index blocks := by
  induction fuel generalizing done index with
  | zero => exact ⟨[], rfl, rfl, trivial⟩
  | succ fuel ih =>
    by_cases hend : done < file.length
    · have hleft : file.length - done ≠ 0 := by omega
      have hblock : 0 < Page.BLOCK_SIZE := by decide
      have hlimit : Double.limit < 2 ^ 64 := by decide
      have hstop := min_add_eq hdone hfile
      generalize hwant : min Page.BLOCK_SIZE (file.length - done) = want at hstop
      have hlen : ((file.drop done).take want).length = want := by simp; omega
      have hslice : Page.slice file done (done + want) = (file.drop done).take want := by
        have hpre : (file.take done).length = done := by simp; omega
        have hcut := Page.slice_eq ((file.drop done).drop want)
          (show (file.take done).length + ((file.drop done).take want).length < Double.limit by
            omega)
        rwa [List.take_append_drop, List.take_append_drop, hpre, hlen] at hcut
      obtain ⟨cipher, tag, hnative, hweb, hopens⟩ := seal_block raw hsame hkey (hivs index)
        (show ((file.drop done).take want).length ≤ Page.BLOCK_SIZE by omega)
        (show index < 2 ^ 64 by omega)
      obtain ⟨blocks, htail, htail', hall⟩ := ih (show done + want ≤ file.length by omega)
        (show index + 1 ≤ done + want by omega)
      have hrest : file.length - (done + want) = file.length - done - want := by omega
      rw [hrest] at htail
      refine ⟨⟨ivs index, blockAad raw index, (file.drop done).take want, cipher, tag⟩ :: blocks,
        ?_, ?_, hopens, hall⟩
      · rw [Slices.lengthsFrom, if_neg hleft, hwant, sealBlocks, if_neg (by simp [hlen]), hnative]
        simp only [List.drop_drop, htail]
        rfl
      · rw [Page.sealLoop, if_pos hend]
        simp only [hstop, hslice, hweb, htail', Option.map_some, List.flatMap_cons]
        rw [← page_block_bytes hopens]
    · have hleft : file.length - done = 0 := by omega
      exact ⟨[], by rw [Slices.lengthsFrom, if_pos hleft, sealBlocks], by
        rw [Page.sealLoop, if_neg hend]; rfl, trivial⟩

theorem bytes_append (b : SealedBlock) (rest : Bytes) : b.bytes ++ rest =
    b.iv ++ (putU32 (UInt32.ofNat b.cipher.length) ++ (b.cipher ++ (b.tag ++ rest))) := by
  simp only [SealedBlock.bytes, List.append_assoc]

theorem putU32_length (v : UInt32) : (putU32 v).length = 4 := LittleEndian.put_length 4 _

theorem Opens.bytes_length {index : ℕ} {b : SealedBlock} (h : Opens C W key raw index b) :
    b.bytes.length = b.plain.length + 32 := by
  simp only [SealedBlock.bytes, List.length_append, putU32_length, h.iv, h.tag, h.cipher]
  simp only [Config.kIvLen, Config.kTagLen]
  omega

theorem openBlocks_round {index : ℕ} {b : SealedBlock} (h : Opens C W key raw index b)
    {J : OpenStorage} {n : ℕ} {done : UInt64} {rest : Bytes} {out : OutStream UInt8}
    (hgood : (out.write (J.writes index) b.plain).good = true) :
    openBlocks C J key raw Config.kBlockSize (n + 1) index done (b.bytes ++ rest) out =
      openBlocks C J key raw Config.kBlockSize n (index + 1)
        (done + UInt64.ofNat b.plain.length) rest (out.write (J.writes index) b.plain) := by
  have hlen := h.bytes_length
  have hiv := h.iv
  have h16 : (b.bytes ++ rest).drop (Config.kIvLen + 4) = b.cipher ++ (b.tag ++ rest) := by
    rw [bytes_append, ← List.drop_drop, List.drop_left' h.iv, List.drop_left' (putU32_length _)]
  have hread : getU32 ((b.bytes ++ rest).drop Config.kIvLen) = UInt32.ofNat b.cipher.length := by
    rw [bytes_append, List.drop_left' h.iv, getU32_putU32_append]
  have hcl : (UInt32.ofNat b.cipher.length).toNat = b.cipher.length :=
    UInt32.toNat_ofNat_of_lt' h.cipher_lt
  have hfits : ¬ Config.kBlockSize < UInt32.ofNat b.cipher.length := by
    rw [UInt32.lt_iff_toNat_lt, hcl, h.cipher]
    exact not_lt.mpr h.plain
  have hlong : ¬ (b.cipher ++ (b.tag ++ rest)).length < b.cipher.length + Config.kTagLen := by
    simp only [List.length_append, h.tag]
    omega
  have hfull : ¬ (b.bytes ++ rest).length < Config.kIvLen + 4 := by
    rw [List.length_append, hlen, Config.kIvLen]
    omega
  rw [openBlocks, if_neg hfull]
  simp only [h16, hread, if_neg hfits, hcl, if_neg hlong, List.take_left, List.drop_left,
    List.take_left' h.tag]
  have htake : (b.bytes ++ rest).take Config.kIvLen = b.iv := by
    rw [bytes_append, List.take_left' h.iv]
  rw [htake, h.native]
  simp only [hgood, Bool.true_eq_false, if_false]
  rw [← List.drop_drop, List.drop_left, List.drop_left' h.tag]

theorem openBlocks_sealed {J : OpenStorage} (hJ : J.Sound) {blocks : List SealedBlock} {index : ℕ}
    (hall : OpensAll C W key raw index blocks) (done : UInt64) {out : OutStream UInt8}
    (hend : out.AtEnd) (hgood : out.good = true) :
    ∃ out', openBlocks C J key raw Config.kBlockSize blocks.length index done
        (blocks.flatMap SealedBlock.bytes) out =
          .ok (done + UInt64.ofNat (blocks.flatMap SealedBlock.plain).length, out') ∧
      out'.good = true ∧ out'.view = out.view ++ blocks.flatMap SealedBlock.plain := by
  induction blocks generalizing index done out with
  | nil => exact ⟨out, by simp [openBlocks], hgood, by simp⟩
  | cons b blocks ih =>
    have hwrite := OutStream.write_good b.plain hgood (hJ.writes index)
    obtain ⟨hview, hend'⟩ := OutStream.write_append hend hwrite
    obtain ⟨out', hopen, hgood', hview'⟩ :=
      ih hall.2 (done + UInt64.ofNat b.plain.length) hend' hwrite
    refine ⟨out', ?_, hgood', ?_⟩
    · rw [List.length_cons, List.flatMap_cons, openBlocks_round hall.1 hwrite, hopen,
        List.flatMap_cons, List.length_append, UInt64.ofNat_add, UInt64.add_assoc]
    · rw [hview', hview, List.flatMap_cons, List.append_assoc]

theorem slice_head {index : ℕ} {b : SealedBlock} (h : Opens C W key raw index b) (pre rest : Bytes)
    (hsafe : pre.length + 16 < Double.limit) :
    Page.slice (pre ++ (b.bytes ++ rest)) pre.length
      (Double.add (Double.add pre.length Page.IV_LEN) 4) = b.iv ++ Page.le32 b.cipher.length := by
  have hlen : (b.iv ++ Page.le32 b.cipher.length).length = 16 := by
    rw [List.length_append, h.iv, Page.le32, LittleEndian.put_length]
    rfl
  have hstop : Double.add (Double.add pre.length Page.IV_LEN) 4 = pre.length + 16 := by
    have hiv : Double.add pre.length Page.IV_LEN = pre.length + 12 :=
      Double.add_eq (by simp only [Page.IV_LEN]; omega)
    rw [hiv, Double.add_eq (by omega)]
  rw [hstop, ← hlen, bytes_append, putU32_ofNat h.cipher_lt, ← List.append_assoc b.iv]
  exact Page.slice_eq _ (by omega)

theorem slice_sealed {index : ℕ} {b : SealedBlock} (h : Opens C W key raw index b)
    (pre rest : Bytes) (hsafe : pre.length + b.bytes.length < Double.limit) :
    Page.slice (pre ++ (b.bytes ++ rest)) (pre.length + 16)
      (Double.add (Double.add (pre.length + 16) b.cipher.length) Page.TAG_LEN) =
        b.cipher ++ b.tag := by
  have hlen : (b.cipher ++ b.tag).length = b.cipher.length + 16 := by
    rw [List.length_append, h.tag]
    rfl
  have hpre : (pre ++ (b.iv ++ Page.le32 b.cipher.length)).length = pre.length + 16 := by
    rw [List.length_append, List.length_append, h.iv, Page.le32, LittleEndian.put_length]
    rfl
  have hbytes := h.bytes_length
  have hcipher := h.cipher
  have hstop : Double.add (Double.add (pre.length + 16) b.cipher.length) Page.TAG_LEN =
      pre.length + 16 + (b.cipher ++ b.tag).length := by
    have hinner : Double.add (pre.length + 16) b.cipher.length =
      pre.length + 16 + b.cipher.length := Double.add_eq (by omega)
    have htag : Page.TAG_LEN = 16 := rfl
    rw [hinner, Double.add_eq (by omega), hlen, htag, Nat.add_assoc]
  have hsplit : pre ++ (b.bytes ++ rest) =
      (pre ++ (b.iv ++ Page.le32 b.cipher.length)) ++ ((b.cipher ++ b.tag) ++ rest) := by
    rw [bytes_append, putU32_ofNat h.cipher_lt]
    simp only [List.append_assoc]
  rw [hstop, hsplit, ← hpre]
  exact Page.slice_eq rest (by omega)

theorem readLe32_head {index : ℕ} {b : SealedBlock} (h : Opens C W key raw index b) :
    Page.readLe32 (b.iv ++ Page.le32 b.cipher.length) Page.IV_LEN = b.cipher.length := by
  have hiv : b.iv.length = Page.IV_LEN := h.iv
  rw [Page.readLe32, List.drop_left' hiv, Page.le32, LittleEndian.get_put h.cipher_lt]

theorem openLoop_round {index : ℕ} {b : SealedBlock} (h : Opens C W key raw index b)
    {pre rest parts : Bytes} {n done : ℕ} (hsafe : pre.length + b.bytes.length < Double.limit) :
    Page.openLoop W key raw (pre ++ (b.bytes ++ rest)) (n + 1) index pre.length done parts =
      Page.openLoop W key raw (pre ++ (b.bytes ++ rest)) n (index + 1)
        (pre.length + b.bytes.length) (Double.add done b.plain.length) (parts ++ b.plain) := by
  have hbytes := h.bytes_length
  have hcipher := h.cipher
  have hiv : b.iv.length = Page.IV_LEN := h.iv
  have hhead : ¬ (b.iv ++ Page.le32 b.cipher.length).length ≠ Page.IV_LEN + 4 := by
    rw [List.length_append, hiv, Page.le32, LittleEndian.put_length]
    exact not_not.mpr rfl
  have hsealed : ¬ (b.cipher ++ b.tag).length ≠ b.cipher.length + Page.TAG_LEN := by
    rw [List.length_append, h.tag]
    exact not_not.mpr rfl
  have hstart : Double.add pre.length (Page.IV_LEN + 4) = pre.length + 16 :=
    Double.add_eq (by simp only [Page.IV_LEN]; omega)
  have hnext : Double.add (pre.length + 16) (b.cipher.length + Page.TAG_LEN) =
      pre.length + b.bytes.length := by
    have htag : Page.TAG_LEN = 16 := rfl
    rw [Double.add_eq (by omega)]
    omega
  rw [Page.openLoop, slice_head h pre rest (by omega)]
  simp only [if_neg hhead, readLe32_head h, hstart, slice_sealed h pre rest hsafe, if_neg hsealed,
    List.take_left' hiv, h.web, hnext]

theorem openLoop_cut {index : ℕ} {b : SealedBlock} (h : Opens C W key raw index b)
    {pre rest parts : Bytes} {n done : ℕ} (hpre : pre.length < Double.limit)
    (hcut : Double.limit ≤ pre.length + b.bytes.length) :
    Page.openLoop W key raw (pre ++ (b.bytes ++ rest)) (n + 1) index pre.length done parts =
      .error "file ends mid-block" := by
  have hbytes := h.bytes_length
  have hcipher := h.cipher
  have hiv : Page.IV_LEN = 12 := rfl
  have htag : Page.TAG_LEN = 16 := rfl
  rw [Page.openLoop]
  by_cases hsafe : pre.length + 16 < Double.limit
  · have hstart : Double.add pre.length (Page.IV_LEN + 4) = pre.length + 16 :=
      Double.add_eq (by omega)
    have hshort := Page.slice_length_lt (pre ++ (b.bytes ++ rest))
      (Double.add (Double.add (pre.length + 16) b.cipher.length) Page.TAG_LEN) hsafe
    rw [slice_head h pre rest hsafe]
    simp only [readLe32_head h, hstart]
    rw [if_pos (show _ ≠ b.cipher.length + Page.TAG_LEN by omega)]
    exact ite_self _
  · have hshort := Page.slice_length_lt (pre ++ (b.bytes ++ rest))
      (Double.add (Double.add pre.length Page.IV_LEN) 4) hpre
    exact if_pos (by omega)

theorem openLoop_sealed {blocks : List SealedBlock} {index : ℕ}
    (hall : OpensAll C W key raw index blocks) (pre parts : Bytes) {done : ℕ}
    (hsafe : (pre ++ blocks.flatMap SealedBlock.bytes).length < Double.limit)
    (hdone : done + (blocks.flatMap SealedBlock.plain).length ≤ Double.limit) :
    Page.openLoop W key raw (pre ++ blocks.flatMap SealedBlock.bytes) blocks.length index pre.length
      done parts = .ok (parts ++ blocks.flatMap SealedBlock.plain,
        done + (blocks.flatMap SealedBlock.plain).length) := by
  induction blocks generalizing index pre parts done with
  | nil => simp [Page.openLoop]
  | cons b blocks ih =>
    rw [List.flatMap_cons, List.length_append] at hdone
    rw [List.flatMap_cons] at hsafe
    have hshort : pre.length + b.bytes.length < Double.limit := by
      simp only [List.length_append] at hsafe
      omega
    have hadd : Double.add done b.plain.length = done + b.plain.length :=
      Double.add_eq (by omega)
    rw [List.flatMap_cons, List.length_cons, openLoop_round hall.1 hshort, hadd,
      ← List.append_assoc, ← List.length_append]
    rw [← List.append_assoc] at hsafe
    rw [ih hall.2 (pre ++ b.bytes) _ hsafe (by omega), List.flatMap_cons, List.length_append,
      List.append_assoc, Nat.add_assoc]

theorem openLoop_beyond {blocks : List SealedBlock} {index : ℕ}
    (hall : OpensAll C W key raw index blocks) (pre parts : Bytes) (done : ℕ)
    (hpre : pre.length < Double.limit)
    (hlong : Double.limit ≤ (pre ++ blocks.flatMap SealedBlock.bytes).length) :
    Page.openLoop W key raw (pre ++ blocks.flatMap SealedBlock.bytes) blocks.length index pre.length
      done parts = .error "file ends mid-block" := by
  induction blocks generalizing index pre parts done with
  | nil =>
    rw [List.flatMap_nil, List.append_nil] at hlong
    exact absurd hlong (not_le.mpr hpre)
  | cons b blocks ih =>
    rw [List.flatMap_cons] at hlong
    rw [List.flatMap_cons, List.length_cons]
    rcases lt_or_ge (pre.length + b.bytes.length) Double.limit with hshort | hcut
    · rw [openLoop_round hall.1 hshort, ← List.append_assoc, ← List.length_append]
      rw [← List.append_assoc] at hlong
      exact ih hall.2 (pre ++ b.bytes) _ _ (by rwa [List.length_append]) hlong
    · exact openLoop_cut hall.1 hpre hcut

end Loops

def header (salt plain : Bytes) : StreamHeader :=
  ⟨Config.kKdfIterations, salt, Config.kBlockSize, UInt64.ofNat plain.length⟩

/-- A container of the plaintext whose blocks both sides open with the passphrase. -/
structure Container (C : Crypto) (W : WebCrypto) (passphrase plain salt key : Bytes)
    (blocks : List SealedBlock) : Prop where
  salt_length : salt.length = Config.kSaltLen
  key_length : key.length = Config.kKeyLen
  native : C.deriveKey passphrase salt Config.kContentKeyLabel Config.kKdfIterations = key
  web : Page.contentKey W passphrase salt Page.ITERATIONS = some key
  opens : OpensAll C W key (buildHeader (header salt plain)) 0 blocks
  plain_eq : blocks.flatMap SealedBlock.plain = plain
  count : blocks.length = (plain.length + Page.BLOCK_SIZE - 1) / Page.BLOCK_SIZE

def stream (salt plain : Bytes) (blocks : List SealedBlock) : Bytes :=
  buildHeader (header salt plain) ++ blocks.flatMap SealedBlock.bytes

section Streams

variable {C : Crypto} {W : WebCrypto} {passphrase plain salt key : Bytes} {ivs : ℕ → Bytes}
  {blocks : List SealedBlock}

theorem OpensAll.bytes_length {raw : Bytes} {index : ℕ} (h : OpensAll C W key raw index blocks) :
    (blocks.flatMap SealedBlock.bytes).length =
      (blocks.flatMap SealedBlock.plain).length + 32 * blocks.length := by
  induction blocks generalizing index with
  | nil => rfl
  | cons b blocks ih =>
    simp only [List.flatMap_cons, List.length_append, List.length_cons, h.1.bytes_length, ih h.2]
    omega

theorem Container.stream_length (h : Container C W passphrase plain salt key blocks) :
    (stream salt plain blocks).length = 37 + plain.length +
      32 * ((plain.length + Page.BLOCK_SIZE - 1) / Page.BLOCK_SIZE) := by
  have hheader : (buildHeader (header salt plain)).length = 37 := buildHeader_length h.salt_length
  rw [stream, List.length_append, hheader, h.opens.bytes_length, h.plain_eq, h.count, Nat.add_assoc]

def sealRun (passphrase salt : Bytes) (ivs : ℕ → Bytes) (hlen : plain.length < Double.limit) :
    SealRun where
  passphrase := passphrase
  plainSize := UInt64.ofNat plain.length
  content := plain
  salt := salt
  ivs := ivs
  plainSize_lt := by
    rw [UInt64.toNat_ofNat_of_lt' (hlen.trans (by decide))]
    exact hlen.trans (by decide)

/-- Both sides write the same container. -/
theorem seal_streams (hsame : SameCrypto C W) (hlen : plain.length < Double.limit)
    (passphrase : Bytes) (hsalt : salt.length = Config.kSaltLen)
    (hivs : ∀ k, (ivs k).length = Config.kIvLen) :
    ∃ key blocks, Container C W passphrase plain salt key blocks ∧
      (sealFile C (sealRun passphrase salt ivs hlen)).map SealedFile.stream =
        .ok (stream salt plain blocks) ∧
      Page.sealFile W passphrase plain salt ivs = some (stream salt plain blocks) := by
  obtain ⟨key, hkey, hnative, hweb⟩ := hsame.derive passphrase (Config.kContentKeyLabel ++ salt)
    Config.kKdfIterations (by decide)
  have hderive : C.deriveKey passphrase salt Config.kContentKeyLabel Config.kKdfIterations = key := by
    rw [Crypto.deriveKey, hnative, Option.getD_some]
  have hcontent : Page.contentKey W passphrase salt Page.ITERATIONS = some key := hweb
  obtain ⟨blocks, hblocks, hparts, hopens⟩ := seal_both (buildHeader (header salt plain))
    plain.length hsame hkey hivs hlen (Nat.zero_le _) (le_refl 0)
  rw [Nat.sub_zero, List.drop_zero] at hblocks
  obtain ⟨hcount, hplain, -⟩ := sealBlocks_ok hblocks
  have hsize : (UInt64.ofNat plain.length).toNat = plain.length :=
    UInt64.toNat_ofNat_of_lt' (hlen.trans (by decide))
  refine ⟨key, blocks, ⟨hsalt, hkey, hderive, hcontent, hopens, ?_, ?_⟩, ?_, ?_⟩
  · rw [hplain, Slices.lengthsFrom_sum (by decide) _ _ le_rfl, List.take_length]
  · rw [hcount, Slices.lengthsFrom_length (by decide) _ _ le_rfl]
  · have hsalt' : ¬ (sealRun passphrase salt ivs hlen).salt.length ≠ Config.kSaltLen :=
      not_not.mpr hsalt
    have hkey' : ¬ ((sealRun passphrase salt ivs hlen).key C).length ≠ Config.kKeyLen := by
      rw [SealRun.key]
      exact not_not.mpr (hderive ▸ hkey)
    have hloop : sealBlocks C ((sealRun passphrase salt ivs hlen).key C)
        (buildHeader (sealRun passphrase salt ivs hlen).header) ivs
        (Slices.lengths Config.kBlockSize.toNat (UInt64.ofNat plain.length).toNat) 0 plain =
          .ok blocks := by
      rw [SealRun.key, hsize]
      exact hderive ▸ hblocks
    rw [sealFile, if_neg hsalt', if_neg hkey']
    dsimp only [sealRun] at hloop ⊢
    rw [hloop]
    rfl
  · rw [Page.sealFile, hcontent]
    simp only [Double.ofNat_eq hlen.le, buildHeader_eq (hlen.trans (by decide))]
    exact congrArg (Option.map _) hparts

variable {J : OpenStorage}

theorem parseHeader_header (plain : Bytes) (h : salt.length = Config.kSaltLen) :
    parseHeader (buildHeader (header salt plain)) = .ok (header salt plain) :=
  parseHeader_buildHeader h (by decide : Config.kBlockSize ≠ 0)
    (by decide : Config.kBlockSize ≤ 64 * 1024 * 1024) (by decide : Config.kKdfIterations ≠ 0)

theorem openFile_stream (h : Container C W passphrase plain salt key blocks)
    (hlen : plain.length < Double.limit) (hJ : J.Sound) (dest : Option Bytes) :
    openFile C J (stream salt plain blocks) passphrase dest = (.ok (), some plain) := by
  have hraw : (buildHeader (header salt plain)).length = kHeaderLen := buildHeader_length h.salt_length
  have hsize : (UInt64.ofNat plain.length).toNat = plain.length :=
    UInt64.toNat_ofNat_of_lt' (hlen.trans (by decide))
  have hcount : (blockCount (UInt64.ofNat plain.length) Config.kBlockSize).toNat = blocks.length := by
    have hsmall : (UInt64.ofNat plain.length).toNat < 2 ^ 63 := by
      rw [hsize]
      exact hlen.trans (by decide)
    rw [blockCount_toNat hsmall, hsize, h.count]
    exact Slices.lengths_length (by decide) _
  have hlong : ¬ (stream salt plain blocks).length < kHeaderLen := by
    rw [stream, List.length_append, hraw]
    omega
  have htake : (stream salt plain blocks).take kHeaderLen = buildHeader (header salt plain) :=
    List.take_left' hraw
  have hdrop : (stream salt plain blocks).drop kHeaderLen = blocks.flatMap SealedBlock.bytes :=
    List.drop_left' hraw
  obtain ⟨out, hopen, hgood, hview⟩ := openBlocks_sealed hJ h.opens 0
    OutStream.opened_atEnd rfl
  have hout : out.close J.closing = plain := by
    rw [OutStream.close_eq_view hgood hJ.closing, hview, h.plain_eq]
    rfl
  have hderive : C.deriveKey passphrase (header salt plain).salt Config.kContentKeyLabel
      (header salt plain).iterations = key := h.native
  have hcount' : (blockCount (header salt plain).plainSize (header salt plain).blockSize).toNat =
      blocks.length := hcount
  have hdone : ¬ (0 + UInt64.ofNat plain.length) ≠ (header salt plain).plainSize := by
    rw [UInt64.zero_add]
    exact not_not.mpr rfl
  rw [openFile, if_neg hlong]
  simp only [htake, parseHeader_header plain h.salt_length, hdrop, hderive, hcount', hJ.opensOutput,
    if_neg (not_not.mpr h.key_length), Bool.true_eq_false, if_false]
  rw [show (header salt plain).blockSize = Config.kBlockSize from rfl, hopen]
  simp only [h.plain_eq, if_neg hdone, hout]

theorem header_fields (hsalt : salt.length = Config.kSaltLen) (hlen : plain.length < Double.limit) :
    (buildHeader (header salt plain)).take 4 = Page.MAGIC ∧
    (buildHeader (header salt plain)).getD 4 0 = Page.VERSION ∧
    Page.readLe32 (buildHeader (header salt plain)) 5 = Page.ITERATIONS ∧
    ((buildHeader (header salt plain)).drop 9).take Page.SALT_LEN = salt ∧
    Page.readLe32 (buildHeader (header salt plain)) (9 + Page.SALT_LEN) = Page.BLOCK_SIZE ∧
    Page.readLe64 (buildHeader (header salt plain)) (13 + Page.SALT_LEN) = plain.length := by
  have hparse := parseHeader_header plain hsalt
  generalize buildHeader (header salt plain) = raw at hparse ⊢
  simp only [parseHeader] at hparse
  split_ifs at hparse with hraw hmagic hversion hblock hiter
  obtain ⟨hiterations, hsalt', hsize, hplain⟩ := StreamHeader.mk.inj (Except.ok.inj hparse)
  have hu32 {p : Bytes} {v : UInt32} (h : getU32 p = v) : LittleEndian.get 4 p = v.toNat := by
    rw [← h, getU32, UInt32.toNat_ofNat_of_lt' (LittleEndian.get_lt 4 p)]
  have hu64 : LittleEndian.get 8 (raw.drop (13 + Config.kSaltLen)) = plain.length := by
    have := congrArg UInt64.toNat hplain
    rwa [getU64, UInt64.toNat_ofNat_of_lt' (LittleEndian.get_lt 8 _),
      UInt64.toNat_ofNat_of_lt' (hlen.trans (by decide))] at this
  refine ⟨not_not.mp hmagic, not_not.mp hversion, hu32 hiterations, hsalt', hu32 hsize, ?_⟩
  rw [Page.readLe64, show Page.SALT_LEN = Config.kSaltLen from rfl, hu64, Double.ofNat_eq hlen.le]

theorem rounds_eq (blob : Bytes) (hlen : plain.length < Double.limit) :
    Page.rounds blob plain.length Page.BLOCK_SIZE =
      (plain.length + Page.BLOCK_SIZE - 1) / Page.BLOCK_SIZE := by
  have hblock : Page.BLOCK_SIZE = 2 ^ 20 := by decide
  unfold Page.rounds
  split_ifs with hzero h
  · rw [hzero]
    decide
  · exact absurd h (by decide)
  · rw [hblock, Double.ceilDiv_two_pow hlen]

/-- `openBlob` gives it back too, unless the stream is longer than the safe integers reach. -/
theorem openBlob_stream (h : Container C W passphrase plain salt key blocks)
    (hlen : plain.length < Double.limit) :
    Page.openBlob W passphrase (stream salt plain blocks) =
      if (stream salt plain blocks).length < Double.limit then .ok plain
      else .error "file ends mid-block" := by
  obtain ⟨hmagic, hversion, hiterations, hsalt, hblock, hsize⟩ :=
    header_fields h.salt_length hlen
  have hraw : (buildHeader (header salt plain)).length = 37 := buildHeader_length h.salt_length
  have hslice : Page.slice (stream salt plain blocks) 0 Page.HEADER_LEN =
      buildHeader (header salt plain) := by
    have hcut := Page.slice_eq (blocks.flatMap SealedBlock.bytes)
      (show ([] : Bytes).length + (buildHeader (header salt plain)).length < Double.limit by
        rw [hraw]
        decide)
    rwa [List.nil_append, List.length_nil, Nat.zero_add, hraw] at hcut
  have hrounds := rounds_eq (stream salt plain blocks) hlen
  rw [← h.count] at hrounds
  have hlength : ¬ (buildHeader (header salt plain)).length ≠ Page.HEADER_LEN := not_not.mpr hraw
  rw [Page.openBlob, hslice]
  simp only [if_neg hlength, hmagic, hversion, hiterations, hsalt, hblock, hsize, hrounds, h.web,
    ne_eq, not_true_eq_false, if_false]
  split_ifs with hshort
  · have hloop := openLoop_sealed h.opens (buildHeader (header salt plain)) [] hshort
      (show 0 + _ ≤ Double.limit by rw [h.plain_eq, Nat.zero_add]; exact hlen.le)
    rw [hraw, h.plain_eq, Nat.zero_add, List.nil_append] at hloop
    rw [stream, show Page.HEADER_LEN = 37 from rfl, hloop]
    simp only [not_true_eq_false, if_false]
  · have hloop := openLoop_beyond h.opens (buildHeader (header salt plain)) [] 0
      (by rw [hraw]; decide) (not_lt.mp hshort)
    rw [hraw] at hloop
    rw [stream, show Page.HEADER_LEN = 37 from rfl, hloop]

end Streams

/-- What either side seals, `openFile` opens and gives back exactly, and so does `openBlob` as long
as the offsets in the stream are safe integers; it refuses a longer stream. -/
theorem containers_agree {C : Crypto} {W : WebCrypto} (hsame : SameCrypto C W) {plain : Bytes}
    (hlen : plain.length < Double.limit) (passphrase : Bytes) {salt salt' : Bytes}
    (hsalt : salt.length = Config.kSaltLen) (hsalt' : salt'.length = Config.kSaltLen)
    {ivs ivs' : ℕ → Bytes} (hivs : ∀ k, (ivs k).length = Config.kIvLen)
    (hivs' : ∀ k, (ivs' k).length = Config.kIvLen) {J : OpenStorage} (hJ : J.Sound)
    (dest : Option Bytes) :
    ∃ native web, (sealFile C (sealRun passphrase salt ivs hlen)).map SealedFile.stream = .ok native ∧
      Page.sealFile W passphrase plain salt' ivs' = some web ∧
      ∀ stream ∈ [native, web],
        stream.length = 37 + plain.length + 32 * ((plain.length + 2 ^ 20 - 1) / 2 ^ 20) ∧
        openFile C J stream passphrase dest = (.ok (), some plain) ∧
        Page.openBlob W passphrase stream =
          if stream.length < 2 ^ 53 then .ok plain else .error "file ends mid-block" := by
  obtain ⟨key, blocks, hnative, hseal, -⟩ := seal_streams hsame hlen passphrase hsalt hivs
  obtain ⟨key', blocks', hweb, -, hseal'⟩ := seal_streams hsame hlen passphrase hsalt' hivs'
  refine ⟨_, _, hseal, hseal', fun x hx => ?_⟩
  rcases List.mem_pair.mp hx with rfl | rfl
  · exact ⟨hnative.stream_length, openFile_stream hnative hlen hJ dest, openBlob_stream hnative hlen⟩
  · exact ⟨hweb.stream_length, openFile_stream hweb hlen hJ dest, openBlob_stream hweb hlen⟩

def webCryptoOf (C : Crypto) : WebCrypto where
  deriveBits passphrase salt iterations := C.pbkdf2 passphrase salt (UInt32.ofNat iterations)
  encrypt key iv aad plain := (C.gcmEncrypt key iv aad plain).map fun x => x.1 ++ x.2
  decrypt key iv aad sealed :=
    C.gcmDecrypt key iv aad (sealed.take (sealed.length - Config.kTagLen))
      (sealed.drop (sealed.length - Config.kTagLen))

/-- The values of the primitives at the inputs that arise for `oneByteRun`, and elsewhere a key and a
tag of zeros. -/
def sampleCrypto : Crypto where
  pbkdf2 passphrase salt iterations :=
    some ((oneByteCrypto.pbkdf2 passphrase salt iterations).getD (List.replicate 32 0))
  gcmEncrypt key iv aad plain :=
    if some key = oneByteCrypto.pbkdf2 (ascii "pw")
          (Config.kContentKeyLabel ++ List.replicate 16 7) Config.kKdfIterations ∧
        iv = oneByteBlock.iv ∧ aad = oneByteBlock.aad ∧ plain = oneByteBlock.plain then
      some (oneByteBlock.cipher, oneByteBlock.tag)
    else some (plain, List.replicate 16 0)
  gcmDecrypt key iv aad cipher tag :=
    (oneByteCrypto.gcmDecrypt key iv aad cipher tag).or
      (if tag = List.replicate 16 0 then some cipher else none)
  hmac := oneByteCrypto.hmac

theorem sampleCrypto_same : SameCrypto sampleCrypto (webCryptoOf sampleCrypto) where
  derive passphrase salt iterations _ := by
    refine ⟨_, ?_, rfl, ?_⟩
    · simp only [oneByteCrypto]
      split_ifs <;> rfl
    · simp only [webCryptoOf, UInt32.ofNat_toNat]
      rfl
  encrypt key iv aad plain _ _ _ := by
    simp only [webCryptoOf, sampleCrypto]
    split_ifs with h
    · exact ⟨_, _, by rw [h.2.2.2]; rfl, rfl, rfl, rfl⟩
    · exact ⟨_, _, rfl, rfl, rfl, rfl⟩
  decrypt key iv aad plain cipher tag h := by
    have hopen : sampleCrypto.gcmDecrypt key iv aad cipher tag = some plain ∧
        tag.length = Config.kTagLen := by
      simp only [sampleCrypto] at h ⊢
      split_ifs at h with hreal
      · obtain ⟨rfl, rfl⟩ := Prod.mk.inj (Option.some.inj h)
        obtain ⟨hkey, rfl, rfl, rfl⟩ := hreal
        obtain rfl := Option.some.inj hkey
        exact ⟨by decide +kernel, rfl⟩
      · obtain ⟨rfl, rfl⟩ := Prod.mk.inj (Option.some.inj h)
        have hzero : oneByteCrypto.gcmDecrypt key iv aad plain (List.replicate 16 0) = none :=
          if_neg fun hc => absurd hc.2.2.2.2 (by decide)
        exact ⟨by rw [hzero, if_pos rfl]; rfl, rfl⟩
    have hcut : (cipher ++ tag).length - Config.kTagLen = cipher.length := by
      rw [List.length_append, hopen.2, Nat.add_sub_cancel]
    refine ⟨hopen.1, ?_⟩
    simp only [webCryptoOf, hcut, List.take_left, List.drop_left, hopen.1]

theorem containers_agree_oneByte :
    SameCrypto sampleCrypto (webCryptoOf sampleCrypto) ∧
    ∃ web, Page.sealFile (webCryptoOf sampleCrypto) (ascii "pw") (ascii "A") (List.replicate 16 7)
        (fun _ => List.replicate 12 9) = some web ∧
      openFile sampleCrypto .buffered web (ascii "pw") none = (.ok (), some (ascii "A")) := by
  obtain ⟨native, web, -, hweb, hall⟩ := containers_agree sampleCrypto_same
    (show (ascii "A").length < Double.limit by decide) (ascii "pw")
    (show (List.replicate 16 (7 : UInt8)).length = Config.kSaltLen from rfl)
    (show (List.replicate 16 (7 : UInt8)).length = Config.kSaltLen from rfl)
    (show ∀ _ : ℕ, (List.replicate 12 (9 : UInt8)).length = Config.kIvLen from fun _ => rfl)
    (show ∀ _ : ℕ, (List.replicate 12 (9 : UInt8)).length = Config.kIvLen from fun _ => rfl)
    OpenStorage.buffered_sound none
  exact ⟨sampleCrypto_same, web, hweb, (hall web (by simp)).2.1⟩

def longestPlain : Bytes := List.replicate (2 ^ 53 - 1) 0

/-- Its stream is no longer reachable by safe integers, and the page refuses what it has sealed,
whatever the cipher. -/
theorem longest_refused :
    (∃ C W, SameCrypto C W) ∧ longestPlain.length < 2 ^ 53 ∧
    ∀ C W, SameCrypto C W → ∃ web,
      Page.sealFile W (ascii "pw") longestPlain (List.replicate 16 7) (fun _ => List.replicate 12 9) =
        some web ∧
      Page.openBlob W (ascii "pw") web = .error "file ends mid-block" := by
  have hlen : longestPlain.length = 2 ^ 53 - 1 := List.length_replicate
  have hshort : longestPlain.length < Double.limit := by
    rw [hlen]
    decide
  refine ⟨⟨_, _, sampleCrypto_same⟩, hshort, fun C W hsame => ?_⟩
  have hsalt : (List.replicate 16 (7 : UInt8)).length = Config.kSaltLen := rfl
  obtain ⟨key, blocks, hcontainer, -, hseal⟩ := seal_streams hsame hshort (ascii "pw") hsalt
    (show ∀ _ : ℕ, (List.replicate 12 (9 : UInt8)).length = Config.kIvLen from fun _ => rfl)
  refine ⟨_, hseal, ?_⟩
  have hlong : ¬ (stream (List.replicate 16 7) longestPlain blocks).length < Double.limit := by
    rw [hcontainer.stream_length, hlen]
    decide
  rw [openBlob_stream hcontainer hshort, if_neg hlong]

end Interop

end PersonalCloud
