import PersonalCloud.Core.Opening

/-! What can be opened of altered streams: with an ideal cipher a block opens only where it was
sealed, but a stream without blocks is not authenticated at all. -/
namespace PersonalCloud

def SealRun.Produced (C : Crypto) (r : SealRun) (key iv aad cipher tag : Bytes) : Prop :=
  ∃ f, sealFile C r = .ok f ∧ r.key C = key ∧
    ∃ b ∈ f.blocks, b.iv = iv ∧ b.aad = aad ∧ b.cipher = cipher ∧ b.tag = tag

/-- An ideal cipher: it opens what the given runs sealed, and nothing else. -/
structure IdealAead (C : Crypto) (runs : List SealRun) : Prop where
  opens_sealed : ∀ r ∈ runs, ∀ f, sealFile C r = .ok f → ∀ b ∈ f.blocks,
    C.aesGcmOpen (r.key C) b.iv b.aad b.cipher b.tag = some b.plain
  produced_of_open : ∀ key iv aad cipher tag plain,
    C.aesGcmOpen key iv aad cipher tag = some plain →
      ∃ r ∈ runs, r.Produced C key iv aad cipher tag

/-- The random generator never gives one salt twice. -/
def FreshSalts (runs : List SealRun) : Prop := ∀ r ∈ runs, ∀ r' ∈ runs, r.salt = r'.salt → r = r'

/-- No other passphrase leads to the key of a run. -/
def KeysTellPassphrase (C : Crypto) (runs : List SealRun) (passphrase : Bytes) : Prop :=
  ∀ r ∈ runs, ∀ salt iterations, (r.key C).length = Config.kKeyLen →
    r.key C = C.deriveKey passphrase salt Config.kContentKeyLabel iterations →
      r.passphrase = passphrase

def sealedPlains (C : Crypto) (runs : List SealRun) (passphrase : Bytes) : Set Bytes :=
  {p | ∃ r ∈ runs, r.passphrase = passphrase ∧ (∃ f, sealFile C r = .ok f) ∧ r.plain = p}

/-- The header announces no plaintext and its key can be derived. -/
def AnnouncesNothing (C : Crypto) (stream passphrase : Bytes) : Prop :=
  kHeaderLen ≤ stream.length ∧ ∃ h, parseHeader (stream.take kHeaderLen) = .ok h ∧
    h.plainSize = 0 ∧
    (C.deriveKey passphrase h.salt Config.kContentKeyLabel h.iterations).length = Config.kKeyLen

variable {C : Crypto} {runs : List SealRun}

/-- A block that opens under index `k` is block `k` of the run whose header the stream has. -/
private theorem open_block (hideal : IdealAead C runs) {key raw iv cipher tag plain : Bytes}
    (hraw : raw.length = kHeaderLen) {k : ℕ} (hk : k < 2 ^ 64)
    (h : C.aesGcmOpen key iv (blockAad raw k) cipher tag = some plain) :
    ∃ r ∈ runs, ∃ f, sealFile C r = .ok f ∧ r.key C = key ∧ buildHeader r.header = raw ∧
      ∃ b, f.blocks[k]? = some b ∧ b.plain = plain := by
  obtain ⟨r, hr, f, hf, hkey, b, hb, rfl, haad, rfl, rfl⟩ :=
    hideal.produced_of_open _ _ _ _ _ _ h
  obtain ⟨hsalt, -, hcount, -, hall⟩ := sealFile_ok hf
  obtain ⟨j, hj⟩ := List.mem_iff_getElem?.mp hb
  obtain ⟨haad', -⟩ := hall j b hj
  have hjlt : j < 2 ^ 64 := by
    have := (List.getElem?_eq_some_iff.mp hj).1
    rw [hcount] at this
    exact this.trans (blockCount r.plainSize Config.kBlockSize).toNat_lt
  have hlen : (buildHeader r.header).length = raw.length := (buildHeader_length hsalt).trans hraw.symm
  obtain ⟨hheader, rfl⟩ := blockAad_inj hlen hjlt hk (haad'.symm.trans haad)
  refine ⟨r, hr, f, hf, hkey, hheader, b, hj, ?_⟩
  have hopen := hideal.opens_sealed r hr f hf b hb
  rw [haad, hkey, h] at hopen
  exact (Option.some.inj hopen).symm

private theorem parseHeader_run {r : SealRun} (hsalt : r.salt.length = Config.kSaltLen) :
    parseHeader (buildHeader r.header) = .ok r.header :=
  parseHeader_buildHeader hsalt (by decide : Config.kBlockSize ≠ 0)
    (by decide : Config.kBlockSize ≤ 64 * 1024 * 1024) (by decide : Config.kKdfIterations ≠ 0)

/-- Blocks that all open, as many as the header calls for and at least one, are together the
plaintext of one run. -/
private theorem open_blocks (hideal : IdealAead C runs) (hfresh : FreshSalts runs)
    {key raw : Bytes} (hraw : raw.length = kHeaderLen) {h : StreamHeader}
    (hparse : parseHeader raw = .ok h) {plains : List Bytes}
    (hlen : plains.length = (blockCount h.plainSize h.blockSize).toNat) (hne : plains ≠ [])
    (hopen : ∀ k plain, plains[k]? = some plain →
      ∃ iv cipher tag, C.aesGcmOpen key iv (blockAad raw k) cipher tag = some plain) :
    ∃ r ∈ runs, (∃ f, sealFile C r = .ok f) ∧ r.key C = key ∧ r.plain = plains.flatten := by
  have hblock {k : ℕ} {plain : Bytes} (hk : plains[k]? = some plain) :
      ∃ r ∈ runs, ∃ f, sealFile C r = .ok f ∧ r.key C = key ∧ buildHeader r.header = raw ∧
        ∃ b, f.blocks[k]? = some b ∧ b.plain = plain := by
    obtain ⟨iv, cipher, tag, hb⟩ := hopen k plain hk
    have hklt := (List.getElem?_eq_some_iff.mp hk).1
    rw [hlen] at hklt
    exact open_block hideal hraw (hklt.trans (UInt64.toNat_lt _)) hb
  obtain ⟨first, tail, hplains⟩ := List.exists_cons_of_ne_nil hne
  have hfirst : plains[0]? = some first := by simp [hplains]
  obtain ⟨r, hr, f, hf, hkey, hheader, -⟩ := hblock hfirst
  obtain ⟨hsalt, -, hcount, hplain, -⟩ := sealFile_ok hf
  have hh : h = r.header := by
    rw [← hheader, parseHeader_run hsalt] at hparse
    exact (Except.ok.inj hparse).symm
  -- the salt in the header singles the run out, so every block is one of its blocks
  have hsame : ∀ r' ∈ runs, ∀ f', sealFile C r' = .ok f' → buildHeader r'.header = raw → r' = r := by
    intro r' hr' f' hf' hheader'
    have hsalt' := (sealFile_ok hf').1
    have heq : r'.header = r.header := by
      apply Except.ok.inj (ε := String)
      rw [← parseHeader_run hsalt', hheader', ← hheader, parseHeader_run hsalt]
    exact hfresh r' hr' r hr (congrArg StreamHeader.salt heq)
  have hmap : plains = f.blocks.map SealedBlock.plain := by
    have hn : plains.length = f.blocks.length := by rw [hlen, hcount, hh]; rfl
    apply List.ext_getElem?
    intro k
    rw [List.getElem?_map]
    rcases lt_or_ge k plains.length with hlt | hge
    · obtain ⟨r', hr', f', hf', -, hheader', b, hb, hbp⟩ := hblock (List.getElem?_eq_getElem hlt)
      obtain rfl := hsame r' hr' f' hf' hheader'
      obtain rfl : f' = f := Except.ok.inj (hf'.symm.trans hf)
      rw [hb, Option.map_some, hbp, List.getElem?_eq_getElem hlt]
    · rw [List.getElem?_eq_none hge, List.getElem?_eq_none (hn ▸ hge), Option.map_none]
  refine ⟨r, hr, ⟨f, hf⟩, hkey, ?_⟩
  rw [hmap, ← hplain, List.flatMap_def]

/-- Where any block was opened, what decrypts is a whole plaintext sealed under the passphrase. -/
theorem decryptStream_sealed (hideal : IdealAead C runs) (hfresh : FreshSalts runs)
    {passphrase : Bytes} (hkeys : KeysTellPassphrase C runs passphrase) {stream : Bytes}
    {head : StreamHeader} {plains : List Bytes}
    (h : decryptStream C stream passphrase = some (head, plains)) (hne : plains ≠ []) :
    plains.flatten ∈ sealedPlains C runs passphrase := by
  obtain ⟨hlong, hparse, hkey, hblocks⟩ := decryptStream_eq_some h
  obtain ⟨hlen, hall⟩ := decryptBlocks_opened hblocks
  have hraw : (stream.take kHeaderLen).length = kHeaderLen := by simp [hlong]
  obtain ⟨r, hr, hf, hrkey, hplain⟩ :=
    open_blocks hideal hfresh hraw hparse hlen hne (by simpa using hall)
  exact ⟨r, hr, hkeys r hr _ _ (hrkey ▸ hkey) hrkey, hf, hplain⟩

theorem announcesNothing_of_decryptStream {stream passphrase : Bytes} {head : StreamHeader}
    (h : decryptStream C stream passphrase = some (head, [])) (hsize : head.plainSize = 0) :
    AnnouncesNothing C stream passphrase := by
  obtain ⟨hlong, hparse, hkey, -⟩ := decryptStream_eq_some h
  exact ⟨hlong, head, hparse, hsize, hkey⟩

theorem decryptStream_of_announcesNothing {stream passphrase : Bytes}
    (h : AnnouncesNothing C stream passphrase) :
    ∃ head, decryptStream C stream passphrase = some (head, []) ∧ head.plainSize = 0 := by
  obtain ⟨hlong, head, hparse, hsize, hkey⟩ := h
  refine ⟨head, ?_, hsize⟩
  simp only [decryptStream, not_lt.mpr hlong, ↓reduceIte, hparse, hkey, ne_eq, not_true_eq_false,
    hsize, blockCount, UInt64.toNat_zero, decryptBlocks, Option.map_some]

/-- With an ideal cipher and fresh salts an opened stream gives back, in whole, a plaintext sealed
under its passphrase, exactly if its header does not announce an empty plaintext, unless an empty
file was sealed; and if the close of the output does not drop a part of the plaintext, unless the
rest of it happens to be another file that was sealed. -/
theorem openFile_sealed_iff (hideal : IdealAead C runs) (hfresh : FreshSalts runs)
    {passphrase : Bytes} (hkeys : KeysTellPassphrase C runs passphrase) (J : OpenStorage)
    (stream : Bytes) (dest : Option Bytes) :
    (∀ p, openFile C J stream passphrase dest = (.ok (), some p) →
      p ∈ sealedPlains C runs passphrase) ↔
    (AnnouncesNothing C stream passphrase → J.opensOutput = true →
      [] ∈ sealedPlains C runs passphrase) ∧
    ∀ head plains, decryptStream C stream passphrase = some (head, plains) →
      UInt64.ofNat plains.flatten.length = head.plainSize → J.opensOutput = true →
      (∀ k < plains.length, (J.writes k).ok = true) →
      J.closing.ok = true ∨
        OutStream.leftOver J.writes 0 0 (plains.map List.length) ≤ J.closing.count ∨
        J.leaves plains ∈ sealedPlains C runs passphrase := by
  constructor
  · intro h
    constructor
    · intro hnothing hopens
      obtain ⟨head, hdecrypt, hsize⟩ := decryptStream_of_announcesNothing hnothing
      rw [← J.leaves_nil]
      exact h _ (openFile_eq_ok_iff.mpr ⟨head, [], hdecrypt, hsize.symm, hopens, by simp, rfl⟩)
    · intro head plains hdecrypt hsize hopens hwrites
      exact .inr (.inr (h _ (openFile_eq_ok_iff.mpr
        ⟨head, plains, hdecrypt, hsize, hopens, hwrites, rfl⟩)))
  · rintro ⟨hempty, hclose⟩ p hopen
    obtain ⟨head, plains, hdecrypt, hsize, hopens, hwrites, hp⟩ := openFile_eq_ok_iff.mp hopen
    obtain rfl := Option.some.inj hp
    by_cases hne : plains = []
    · subst hne
      rw [J.leaves_nil]
      exact hempty (announcesNothing_of_decryptStream hdecrypt hsize.symm) hopens
    · have hsealed := decryptStream_sealed hideal hfresh hkeys hdecrypt hne
      rcases or_assoc.mpr (hclose head plains hdecrypt hsize hopens hwrites) with hwhole | hrest
      · rwa [(OpenStorage.leaves_eq_iff hwrites).mpr hwhole]
      · exact hrest

theorem oneByteCrypto_ideal : IdealAead oneByteCrypto [oneByteRun] where
  opens_sealed := by
    intro r hr f hf b hb
    obtain rfl := List.mem_singleton.mp hr
    obtain ⟨g, hg, hblocks, -⟩ := sealFile_oneByteRun
    obtain rfl : g = f := Except.ok.inj (hg.symm.trans hf)
    rw [hblocks] at hb
    obtain rfl := List.mem_singleton.mp hb
    decide +kernel
  produced_of_open := by
    intro key iv aad cipher tag plain h
    obtain ⟨g, hg, hblocks, -⟩ := sealFile_oneByteRun
    unfold Crypto.aesGcmOpen at h
    split_ifs at h
    simp only [oneByteCrypto] at h
    split_ifs at h with hcall
    obtain ⟨rfl, rfl, rfl, rfl, rfl⟩ := hcall
    refine ⟨oneByteRun, by simp, g, hg, by decide +kernel, oneByteBlock, by simp [hblocks], ?_⟩
    exact ⟨rfl, rfl, rfl, rfl⟩

theorem oneByteRun_fresh : FreshSalts [oneByteRun] := by
  intro r hr r' hr' _
  rw [List.mem_singleton.mp hr, List.mem_singleton.mp hr']

theorem oneByteCrypto_keysTellPassphrase :
    KeysTellPassphrase oneByteCrypto [oneByteRun] (ascii "pw") := by
  intro r hr _ _ _ _
  rw [List.mem_singleton.mp hr]
  rfl

theorem decryptStream_oneByte : decryptStream oneByteCrypto oneByteStream (ascii "pw") =
    some (oneByteRun.header, [ascii "A"]) := by decide +kernel

/-- The close of the output fails, but only when it has taken everything. -/
theorem openFile_sealed_oneByte :
    openFile oneByteCrypto .early oneByteStream (ascii "pw") none = (.ok (), some (ascii "A")) ∧
    ascii "A" ∈ sealedPlains oneByteCrypto [oneByteRun] (ascii "pw") := by
  have hopen : openFile oneByteCrypto .early oneByteStream (ascii "pw") none =
      (.ok (), some (ascii "A")) := by decide +kernel
  refine ⟨hopen, (openFile_sealed_iff oneByteCrypto_ideal oneByteRun_fresh
    oneByteCrypto_keysTellPassphrase .early oneByteStream none).mpr ⟨?_, ?_⟩ _ hopen⟩
  · intro hnothing
    obtain ⟨head, hdecrypt, -⟩ := decryptStream_of_announcesNothing hnothing
    rw [decryptStream_oneByte] at hdecrypt
    simp at hdecrypt
  · intro head plains hdecrypt _ _ _
    obtain ⟨-, rfl⟩ := Prod.mk.inj (Option.some.inj (decryptStream_oneByte.symm.trans hdecrypt))
    exact .inr (.inl (by decide))

/-- The header of the same stream with its size field set to zero. -/
def emptiedStream : Bytes := buildHeader { oneByteRun.header with plainSize := 0 }

/-- The emptied header opens to an empty file although only a file of one byte was sealed. -/
theorem openFile_emptiedStream :
    IdealAead oneByteCrypto [oneByteRun] ∧ FreshSalts [oneByteRun] ∧
    KeysTellPassphrase oneByteCrypto [oneByteRun] (ascii "pw") ∧
    openFile oneByteCrypto .buffered emptiedStream (ascii "pw") none = (.ok (), some []) ∧
    [] ∉ sealedPlains oneByteCrypto [oneByteRun] (ascii "pw") := by
  refine ⟨oneByteCrypto_ideal, oneByteRun_fresh, oneByteCrypto_keysTellPassphrase,
    by decide +kernel, ?_⟩
  rintro ⟨r, hr, -, -, hplain⟩
  obtain rfl := List.mem_singleton.mp hr
  exact absurd hplain (by decide +kernel)

end PersonalCloud
