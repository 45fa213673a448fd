import PersonalCloud.System.Interop

/-! The dedup tag of a plaintext, computed in three ways: block by block while a file is sealed,
buffer by buffer from the file, and in one call by the page. -/
namespace PersonalCloud

/-- What OpenSSL offers to compute an HMAC of data that comes in parts. -/
structure MacContext where
  State : Type
  init : Bytes → State
  update : State → Bytes → State
  final : State → Bytes

namespace MacContext

variable (T : MacContext)

/-- `HmacSha256::update`, which passes nothing on for an empty part. -/
def feed (s : T.State) (data : Bytes) : T.State := if data = [] then s else T.update s data

/-- The incremental HMAC is the one-shot HMAC of the concatenated parts. -/
def Incremental (hmac : Bytes → Bytes → Bytes) : Prop :=
  ∀ key (parts : List Bytes), T.final (parts.foldl T.update (T.init key)) = hmac key parts.flatten

variable {T}

theorem foldl_feed (s : T.State) (parts : List Bytes) :
    parts.foldl T.feed s = (parts.filter (· ≠ [])).foldl T.update s := by
  induction parts generalizing s with
  | nil => rfl
  | cons part parts ih =>
    by_cases hpart : part = []
    · simp [feed, hpart, ih]
    · simp [feed, hpart, ih]

theorem flatten_filter_ne_nil (parts : List Bytes) :
    (parts.filter (· ≠ [])).flatten = parts.flatten := by
  induction parts with
  | nil => rfl
  | cons part parts ih =>
    by_cases hpart : part = []
    · simpa [hpart] using ih
    · simpa [hpart] using ih

/-- How the data was cut does not show in the result. -/
theorem final_foldl_feed {hmac : Bytes → Bytes → Bytes} (h : T.Incremental hmac) (key : Bytes)
    (parts : List Bytes) : T.final (parts.foldl T.feed (T.init key)) = hmac key parts.flatten := by
  rw [foldl_feed, h, flatten_filter_ne_nil]

end MacContext

/-- The block loop of `sealFile` with the tagger, which is given each block before it is
encrypted. -/
def sealBlocksTagging (C : Crypto) (T : MacContext) (key header : Bytes) (ivs : ℕ → Bytes) :
    List ℕ → ℕ → Bytes → T.State → Except String (List SealedBlock × T.State)
  | [], _, _, tagger => .ok ([], tagger)
  | want :: wants, index, rest, tagger =>
      if (rest.take want).length ≠ want then
        .error "short read (did the file change while it was sealed?)"
      else
        let tagger := T.feed tagger (rest.take want)
        match C.aesGcmSeal key (ivs index) (blockAad header index) (rest.take want) with
        | none => .error "encryption failed"
        | some (cipher, tag) => do
            let (blocks, tagger) ←
              sealBlocksTagging C T key header ivs wants (index + 1) (rest.drop want) tagger
            .ok (⟨ivs index, blockAad header index, rest.take want, cipher, tag⟩ :: blocks, tagger)

def sealFileTagging (C : Crypto) (T : MacContext) (r : SealRun) : Except String SealedFile :=
  if r.salt.length ≠ Config.kSaltLen then .error "no entropy available for salt"
  else if (r.key C).length ≠ Config.kKeyLen then .error "key derivation failed"
  else do
    let raw := buildHeader r.header
    let (blocks, tagger) ← sealBlocksTagging C T (r.key C) raw r.ivs
      (Slices.lengths Config.kBlockSize.toNat r.plainSize.toNat) 0 r.content
      (T.init (C.deriveDedupKey r.passphrase))
    .ok ⟨blocks, raw ++ blocks.flatMap SealedBlock.bytes, toHex (T.final tagger)⟩

section Sealing

variable {C : Crypto} {T : MacContext}

/-- The tagger is given the plaintexts of the blocks and changes nothing else. -/
theorem sealBlocksTagging_eq (key header : Bytes) (ivs : ℕ → Bytes) (wants : List ℕ) (index : ℕ)
    (rest : Bytes) (tagger : T.State) :
    sealBlocksTagging C T key header ivs wants index rest tagger =
      (sealBlocks C key header ivs wants index rest).map fun blocks =>
        (blocks, (blocks.map SealedBlock.plain).foldl T.feed tagger) := by
  induction wants generalizing index rest tagger with
  | nil => rfl
  | cons want wants ih =>
    simp only [sealBlocksTagging, sealBlocks]
    split_ifs
    · rfl
    · cases C.aesGcmSeal key (ivs index) (blockAad header index) (rest.take want) with
      | none => rfl
      | some sealed =>
        obtain ⟨cipher, tag⟩ := sealed
        simp only [ih]
        cases sealBlocks C key header ivs wants (index + 1) (rest.drop want) with
        | error reason => rfl
        | ok blocks => rfl

/-- With an incremental HMAC the tag is that of the whole plaintext. -/
theorem sealFileTagging_eq (h : T.Incremental C.hmac) (r : SealRun) :
    sealFileTagging C T r = sealFile C r := by
  simp only [sealFileTagging, sealFile, sealBlocksTagging_eq]
  split_ifs
  · rfl
  · rfl
  · cases sealBlocks C (r.key C) (buildHeader r.header) r.ivs
        (Slices.lengths Config.kBlockSize.toNat r.plainSize.toNat) 0 r.content with
    | error reason => rfl
    | ok blocks =>
      have htag := MacContext.final_foldl_feed h (C.deriveDedupKey r.passphrase)
        (blocks.map SealedBlock.plain)
      simp only [Except.map, bind, Except.bind, htag, List.flatMap_def]

/-- What is sealed of a file that does not change is all of it, whatever the salt and the ivs. -/
theorem dedupTag_of_sealFile {r : SealRun} (hlen : r.plainSize.toNat = r.content.length)
    {f : SealedFile} (h : sealFile C r = .ok f) :
    f.dedupTag = toHex (C.hmac (C.deriveDedupKey r.passphrase) r.content) := by
  have htag : f.dedupTag = toHex (C.hmac (C.deriveDedupKey r.passphrase)
      (f.blocks.flatMap SealedBlock.plain)) := by
    unfold sealFile at h
    split_ifs at h
    cases hblocks : sealBlocks C (r.key C) (buildHeader r.header) r.ivs
        (Slices.lengths Config.kBlockSize.toNat r.plainSize.toNat) 0 r.content with
    | error reason =>
      simp only [hblocks] at h
      cases h
    | ok blocks =>
      simp only [hblocks] at h
      obtain rfl := Except.ok.inj h
      rfl
  rw [htag, (sealFile_ok h).2.2.2.1, SealRun.plain, hlen, List.take_length]

end Sealing

/-- The read loop of `dedupTagForFile`. A round that fills the buffer takes some of the file; one
that does not ends the loop. -/
def readTagging (T : MacContext) : ℕ → Bytes → T.State → T.State
  | 0, _, tagger => tagger
  | fuel + 1, rest, tagger =>
      let got := rest.take Config.kIoBufferSize
      let tagger := T.feed tagger got
      if got.length < Config.kIoBufferSize then tagger
      else readTagging T fuel (rest.drop Config.kIoBufferSize) tagger

def dedupTagForFile (C : Crypto) (T : MacContext) (file : Option Bytes) (passphrase : Bytes) :
    Bytes :=
  match file with
  | none => []
  | some content =>
      toHex (T.final (readTagging T (content.length + 1) content
        (T.init (C.deriveDedupKey passphrase))))

theorem readTagging_parts {T : MacContext} {fuel : ℕ} {rest : Bytes} (hfuel : rest.length < fuel)
    (tagger : T.State) :
    ∃ parts : List Bytes, parts.flatten = rest ∧
      readTagging T fuel rest tagger = parts.foldl T.feed tagger := by
  induction fuel generalizing rest tagger with
  | zero => omega
  | succ fuel ih =>
    have hbuffer : 0 < Config.kIoBufferSize := by decide
    simp only [readTagging]
    split_ifs with hshort
    · rw [List.length_take] at hshort
      refine ⟨[rest.take Config.kIoBufferSize], ?_, rfl⟩
      rw [List.flatten_singleton]
      exact List.take_of_length_le (by omega)
    · rw [List.length_take] at hshort
      obtain ⟨parts, hflatten, hrun⟩ := @ih (rest.drop Config.kIoBufferSize)
        (by rw [List.length_drop]; omega) (T.feed tagger (rest.take Config.kIoBufferSize))
      refine ⟨rest.take Config.kIoBufferSize :: parts, ?_, hrun⟩
      rw [List.flatten_cons, hflatten, List.take_append_drop]

theorem dedupTagForFile_eq {C : Crypto} {T : MacContext} (h : T.Incremental C.hmac)
    (content passphrase : Bytes) : dedupTagForFile C T (some content) passphrase =
      toHex (C.hmac (C.deriveDedupKey passphrase) content) := by
  obtain ⟨parts, hflatten, hrun⟩ := readTagging_parts (Nat.lt_succ_self content.length)
    (T.init (C.deriveDedupKey passphrase))
  simp only [dedupTagForFile, hrun, MacContext.final_foldl_feed h, hflatten]

private theorem padStart_hexText (n : Fin 256) : Page.padStart 2 48 (Page.hexText (UInt8.ofFin n)) =
    [hexDigit (UInt8.ofFin n >>> 4), hexDigit (UInt8.ofFin n &&& 0x0F)] := by
  revert n
  decide +kernel

theorem page_toHex_eq (data : Bytes) : Page.toHex data = toHex data := by
  have hbyte (c : UInt8) : Page.padStart 2 48 (Page.hexText c) =
      [hexDigit (c >>> 4), hexDigit (c &&& 0x0F)] := padStart_hexText c.toFin
  simp only [Page.toHex, toHex, hbyte]

/-- OpenSSL and WebCrypto compute the same PBKDF2 and HMAC, in parts or in one call. -/
structure SameTagging (C : Crypto) (T : MacContext) (W : WebCrypto)
    (sign : Bytes → Bytes → Option Bytes) : Prop where
  derive : ∀ passphrase salt (iterations : UInt32), iterations ≠ 0 →
    ∃ key, key.length = Config.kKeyLen ∧ C.pbkdf2 passphrase salt iterations = some key ∧
      W.deriveBits passphrase salt iterations.toNat = some key
  incremental : T.Incremental C.hmac
  sign : ∀ key data, key.length = Config.kKeyLen → sign key data = some (C.hmac key data)

section Page

variable {C : Crypto} {T : MacContext} {W : WebCrypto} {sign : Bytes → Bytes → Option Bytes}

/-- Both sides derive the key of the tags from the same salt. -/
theorem dedupKey_eq (h : SameTagging C T W sign) (pass : Bytes) :
    Page.dedupKey W pass = some (C.deriveDedupKey pass) ∧
      (C.deriveDedupKey pass).length = Config.kKeyLen := by
  have hlabel : Config.kDedupKeyLabel = Page.DEDUP_LABEL := by decide
  have hiterations : Config.kKdfIterations.toNat = Page.ITERATIONS := by decide
  obtain ⟨key, hlen, hnative, hweb⟩ := h.derive pass (Page.DEDUP_LABEL ++ Page.DEDUP_LABEL)
    Config.kKdfIterations (by decide)
  have hkey : C.deriveDedupKey pass = key := by
    rw [Crypto.deriveDedupKey, Crypto.deriveKey, hlabel, hnative, Option.getD_some]
  rw [Page.dedupKey, hkey, ← hiterations, hweb]
  exact ⟨rfl, hlen⟩

theorem page_dedupTagFor_eq (h : SameTagging C T W sign) (pass file : Bytes) :
    Page.dedupTagFor W sign pass file =
      some (if Page.DEDUP_LIMIT < Double.ofNat file.length then []
        else toHex (C.hmac (C.deriveDedupKey pass) file)) := by
  obtain ⟨hkey, hlen⟩ := dedupKey_eq h pass
  simp only [Page.dedupTagFor, hkey, h.sign _ file hlen, Option.map_some, page_toHex_eq]
  split_ifs <;> rfl

/-- The three tags of a plaintext are one: what sealing reports, for any salt and ivs, what is
computed from the file, and what the page computes of a file it tags. -/
theorem dedup_tags_agree (h : SameTagging C T W sign) (passphrase content : Bytes) :
    (∀ (r : SealRun) f, r.passphrase = passphrase → r.content = content →
      r.plainSize.toNat = content.length → sealFileTagging C T r = .ok f →
      f.dedupTag = dedupTagForFile C T (some content) passphrase) ∧
    (content.length ≤ Page.DEDUP_LIMIT → Page.dedupTagFor W sign passphrase content =
      some (dedupTagForFile C T (some content) passphrase)) ∧
    ∀ tag, Page.dedupTagFor W sign passphrase content = some tag → tag ≠ [] →
      tag = dedupTagForFile C T (some content) passphrase := by
  rw [dedupTagForFile_eq h.incremental, page_dedupTagFor_eq h]
  refine ⟨?_, ?_, ?_⟩
  · rintro r f rfl rfl hlen hseal
    rw [sealFileTagging_eq h.incremental] at hseal
    exact dedupTag_of_sealFile hlen hseal
  · intro hlen
    have hlimit : Page.DEDUP_LIMIT ≤ Double.limit := by decide
    rw [Double.ofNat_eq (hlen.trans hlimit), if_neg (Nat.not_lt.mpr hlen)]
  · intro tag htag hne
    rw [← Option.some.inj htag] at hne ⊢
    split_ifs at hne ⊢
    · exact absurd rfl hne
    · rfl

end Page

def taggingCrypto : Crypto := { Interop.sampleCrypto with
  pbkdf2 passphrase salt iterations :=
    if passphrase = ascii "pw" ∧ salt = Config.kDedupKeyLabel ++ Config.kDedupKeyLabel ∧
        iterations = Config.kKdfIterations then
      some [92, 119, 233, 164, 17, 186, 15, 133, 51, 158, 229, 108, 237, 51, 105, 86, 244, 62, 130,
        43, 135, 200, 18, 199, 198, 125, 134, 106, 161, 172, 161, 183]
    else Interop.sampleCrypto.pbkdf2 passphrase salt iterations }

def collect (s : Bytes × Bytes) (data : Bytes) : Bytes × Bytes := (s.1, s.2 ++ data)

theorem foldl_collect (parts : List Bytes) (s : Bytes × Bytes) :
    parts.foldl collect s = (s.1, s.2 ++ parts.flatten) := by
  induction parts generalizing s with
  | nil => simp
  | cons part parts ih => simp [ih, collect]

/-- A context that keeps the data until the end. -/
def collecting (C : Crypto) : MacContext := ⟨Bytes × Bytes, fun key => (key, []), collect,
  fun s => C.hmac s.1 s.2⟩

theorem collecting_incremental (C : Crypto) : (collecting C).Incremental C.hmac := by
  intro key parts
  change C.hmac (parts.foldl collect (key, [])).1 (parts.foldl collect (key, [])).2 = _
  rw [foldl_collect, List.nil_append]

theorem taggingCrypto_same : SameTagging taggingCrypto (collecting taggingCrypto)
    (Interop.webCryptoOf taggingCrypto) (fun key data => some (taggingCrypto.hmac key data)) where
  derive passphrase salt iterations hpos := by
    obtain ⟨key, hlen, hnative, -⟩ := Interop.sampleCrypto_same.derive passphrase salt iterations hpos
    simp only [Interop.webCryptoOf, UInt32.ofNat_toNat, taggingCrypto]
    split_ifs
    · exact ⟨_, rfl, rfl, rfl⟩
    · exact ⟨key, hlen, hnative, hnative⟩
  incremental := collecting_incremental taggingCrypto
  sign _ _ _ := rfl

theorem dedup_tags_agree_oneByte :
    ∃ f, sealFileTagging taggingCrypto (collecting taggingCrypto) oneByteRun = .ok f ∧
      f.dedupTag = dedupTagForFile taggingCrypto (collecting taggingCrypto) (some (ascii "A"))
        (ascii "pw") ∧
      Page.dedupTagFor (Interop.webCryptoOf taggingCrypto)
        (fun key data => some (taggingCrypto.hmac key data)) (ascii "pw") (ascii "A") =
          some f.dedupTag := by
  obtain ⟨hsealed, hpage, -⟩ := dedup_tags_agree taggingCrypto_same (ascii "pw") (ascii "A")
  obtain ⟨f, hf⟩ : ∃ f, sealFileTagging taggingCrypto (collecting taggingCrypto) oneByteRun =
    .ok f := ⟨_, rfl⟩
  have htag := hsealed oneByteRun f rfl rfl rfl hf
  refine ⟨f, hf, htag, ?_⟩
  rw [htag]
  exact hpage (by decide)

end PersonalCloud
