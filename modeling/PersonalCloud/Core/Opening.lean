import PersonalCloud.Core.Stream

/-! What opening a stream leaves at its destination when local storage can fail at any write and at
the close. -/
namespace PersonalCloud

def decryptBlocks (C : Crypto) (key raw : Bytes) (blockSize : UInt32) :
    ℕ → ℕ → Bytes → Option (List Bytes)
  | 0, _, _ => some []
  | n + 1, index, rest =>
      if rest.length < Config.kIvLen + 4 then none
      else
        let iv := rest.take Config.kIvLen
        let cipherLen := getU32 (rest.drop Config.kIvLen)
        let rest := rest.drop (Config.kIvLen + 4)
        if blockSize < cipherLen then none
        else if rest.length < cipherLen.toNat + Config.kTagLen then none
        else
          let cipher := rest.take cipherLen.toNat
          let tag := (rest.drop cipherLen.toNat).take Config.kTagLen
          match C.aesGcmOpen key iv (blockAad raw index) cipher tag with
          | none => none
          | some plain =>
              (decryptBlocks C key raw blockSize n (index + 1)
                (rest.drop (cipherLen.toNat + Config.kTagLen))).map (plain :: ·)

def decryptStream (C : Crypto) (stream passphrase : Bytes) : Option (StreamHeader × List Bytes) :=
  if stream.length < kHeaderLen then none
  else
    let raw := stream.take kHeaderLen
    match parseHeader raw with
    | .error _ => none
    | .ok h =>
        let key := C.deriveKey passphrase h.salt Config.kContentKeyLabel h.iterations
        if key.length ≠ Config.kKeyLen then none
        else (decryptBlocks C key raw h.blockSize (blockCount h.plainSize h.blockSize).toNat 0
          (stream.drop kHeaderLen)).map (h, ·)

/-- GCM decrypts a ciphertext to as many bytes. -/
def Crypto.KeepsLength (C : Crypto) : Prop :=
  ∀ key iv aad cipher tag plain, C.gcmDecrypt key iv aad cipher tag = some plain →
    plain.length = cipher.length

/-- The file that is left when the decrypted blocks were written and the output is closed: a close
that fails drops what it has not taken of the buffer. -/
def OpenStorage.leaves (J : OpenStorage) (plains : List Bytes) : Bytes :=
  if J.closing.ok then plains.flatten
  else plains.flatten.take (plains.flatten.length -
    (OutStream.leftOver J.writes 0 0 (plains.map List.length) - J.closing.count))

variable {C : Crypto} {J : OpenStorage} {key raw : Bytes} {blockSize : UInt32} {n index : ℕ}
  {rest : Bytes}

@[simp] theorem OpenStorage.leaves_nil (J : OpenStorage) : J.leaves [] = [] := by
  simp [leaves]

private theorem writeAll_opened {plains : List Bytes}
    (hwrites : ∀ k < plains.length, (J.writes k).ok = true) :
    (OutStream.opened.writeAll J.writes 0 plains).Appending plains.flatten ∧
      (OutStream.opened.writeAll J.writes 0 plains).buffer.length =
        OutStream.leftOver J.writes 0 0 (plains.map List.length) := by
  have hopened : (OutStream.opened : OutStream UInt8).Appending [] := ⟨rfl, rfl, rfl⟩
  have hwrites' : ∀ k < plains.length, (J.writes (0 + k)).ok = true := by simpa using hwrites
  exact hopened.writeAll hwrites'

theorem OpenStorage.close_eq_leaves {plains : List Bytes}
    (hwrites : ∀ k < plains.length, (J.writes k).ok = true) :
    (OutStream.opened.writeAll J.writes 0 plains).close J.closing = J.leaves plains := by
  obtain ⟨hall, hleft⟩ := writeAll_opened hwrites
  rw [hall.close_eq, hleft, leaves]

theorem OpenStorage.leaves_eq_iff {plains : List Bytes}
    (hwrites : ∀ k < plains.length, (J.writes k).ok = true) :
    J.leaves plains = plains.flatten ↔ J.closing.ok = true ∨
      OutStream.leftOver J.writes 0 0 (plains.map List.length) ≤ J.closing.count := by
  obtain ⟨hall, hleft⟩ := writeAll_opened hwrites
  rw [← close_eq_leaves hwrites, hall.close_eq_iff, hleft]

/-- The loop comes to its end exactly when every block decrypts and no write fails. -/
theorem openBlocks_eq_ok_iff {done done' : UInt64} {out out' : OutStream UInt8}
    (hgood : out.good = true) :
    openBlocks C J key raw blockSize n index done rest out = .ok (done', out') ↔
      ∃ plains, decryptBlocks C key raw blockSize n index rest = some plains ∧
        (∀ k < plains.length, (J.writes (index + k)).ok = true) ∧
        done' = done + UInt64.ofNat plains.flatten.length ∧
        out' = out.writeAll J.writes index plains := by
  induction n generalizing index done rest out with
  | zero =>
    simp only [openBlocks, decryptBlocks, Except.ok.injEq, Prod.mk.injEq, Option.some.injEq,
      exists_eq_left']
    constructor
    · rintro ⟨rfl, rfl⟩
      exact ⟨by simp, by simp, rfl⟩
    · rintro ⟨-, hdone, hout⟩
      exact ⟨by simpa using hdone.symm, hout.symm⟩
  | succ n ih =>
    simp only [openBlocks, decryptBlocks]
    split_ifs with hiv hsize hlen
    · simp
    · simp
    · simp
    · cases C.aesGcmOpen key (rest.take Config.kIvLen) (blockAad raw index)
          ((rest.drop (Config.kIvLen + 4)).take (getU32 (rest.drop Config.kIvLen)).toNat)
          (((rest.drop (Config.kIvLen + 4)).drop (getU32 (rest.drop Config.kIvLen)).toNat).take
            Config.kTagLen) with
      | none => simp
      | some plain =>
        simp only [Option.map_eq_some_iff]
        by_cases hwrite : (J.writes index).ok = true
        · have hgood' : (out.write (J.writes index) plain).good = true :=
            OutStream.write_good plain hgood hwrite
          rw [if_neg (by simp [hgood']), ih hgood']
          have hsum (plains : List Bytes) :
              done + UInt64.ofNat plain.length + UInt64.ofNat plains.flatten.length =
                done + UInt64.ofNat (plain :: plains).flatten.length := by
            rw [List.flatten_cons, List.length_append, UInt64.ofNat_add, UInt64.add_assoc]
          have hwrites (plains : List Bytes) :
              (∀ k < plains.length, (J.writes (index + 1 + k)).ok = true) ↔
                ∀ k < (plain :: plains).length, (J.writes (index + k)).ok = true := by
            rw [List.length_cons, Nat.forall_lt_succ_left']
            simp only [hwrite, Nat.add_zero, true_and, Nat.add_assoc, Nat.add_comm 1]
          constructor
          · rintro ⟨plains, hplains, hok, hdone, hout⟩
            exact ⟨_, ⟨plains, hplains, rfl⟩, (hwrites plains).mp hok, hsum plains ▸ hdone, hout⟩
          · rintro ⟨_, ⟨plains, hplains, rfl⟩, hok, hdone, hout⟩
            exact ⟨plains, hplains, (hwrites plains).mpr hok, (hsum plains).symm ▸ hdone, hout⟩
        · have hfailed : (out.write (J.writes index) plain).good = false := by
            by_contra h
            exact hwrite (OutStream.good_of_write (by simpa using h)).2
          rw [if_pos hfailed]
          constructor
          · intro h
            contradiction
          · rintro ⟨_, ⟨plains, -, rfl⟩, hok, -⟩
            exact absurd (hok 0 (by simp)) hwrite

/-- The blocks of a stream were opened one by one, each under its index. -/
theorem decryptBlocks_opened {plains : List Bytes}
    (h : decryptBlocks C key raw blockSize n index rest = some plains) :
    plains.length = n ∧ ∀ k plain, plains[k]? = some plain →
      ∃ iv cipher tag, C.aesGcmOpen key iv (blockAad raw (index + k)) cipher tag = some plain := by
  induction n generalizing index rest plains with
  | zero =>
    obtain rfl := Option.some.inj h
    exact ⟨rfl, by simp⟩
  | succ n ih =>
    simp only [decryptBlocks] at h
    split_ifs at h
    split at h
    · contradiction
    · next plain hopen =>
      obtain ⟨tail, htail, rfl⟩ := Option.map_eq_some_iff.mp h
      obtain ⟨hcount, hall⟩ := ih htail
      refine ⟨by simp [hcount], fun k p hk => ?_⟩
      cases k with
      | zero =>
        obtain rfl : plain = p := Option.some.inj hk
        exact ⟨_, _, _, hopen⟩
      | succ k =>
        have hindex : index + (k + 1) = index + 1 + k := by omega
        rw [hindex]
        exact hall k p (by simpa using hk)

theorem decryptBlocks_length (hgcm : C.KeepsLength) {plains : List Bytes}
    (h : decryptBlocks C key raw blockSize n index rest = some plains) :
    plains.length = n ∧ ∀ plain ∈ plains, plain.length ≤ blockSize.toNat := by
  induction n generalizing index rest plains with
  | zero =>
    obtain rfl := Option.some.inj h
    exact ⟨rfl, by simp⟩
  | succ n ih =>
    simp only [decryptBlocks] at h
    split_ifs at h with hiv hsize hlen
    split at h
    · contradiction
    · next plain hopen =>
      obtain ⟨tail, htail, rfl⟩ := Option.map_eq_some_iff.mp h
      obtain ⟨hcount, hbound⟩ := ih htail
      refine ⟨by simp [hcount], ?_⟩
      intro p hp
      rcases List.mem_cons.mp hp with rfl | hp
      · unfold Crypto.aesGcmOpen at hopen
        split_ifs at hopen
        have hplain := hgcm _ _ _ _ _ _ hopen
        have hcipher := UInt32.le_iff_toNat_le.mp (UInt32.not_lt.mp hsize)
        rw [hplain, List.length_take]
        omega
      · exact hbound p hp

/-- The blocks of a header hold fewer bytes than a counter of 64 bits can count. -/
theorem blockCount_mul_lt (plainSize : UInt64) (blockSize : UInt32) :
    (blockCount plainSize blockSize).toNat * blockSize.toNat < 2 ^ 64 := by
  unfold blockCount
  split_ifs
  · simp
  · rw [UInt64.toNat_div, UInt32.toNat_toUInt64]
    exact (Nat.div_mul_le_self _ _).trans_lt (UInt64.toNat_lt _)

theorem flatten_length_lt (hgcm : C.KeepsLength) {plainSize : UInt64} {plains : List Bytes}
    (h : decryptBlocks C key raw blockSize (blockCount plainSize blockSize).toNat index rest =
      some plains) : plains.flatten.length < 2 ^ 64 := by
  obtain ⟨hcount, hbound⟩ := decryptBlocks_length hgcm h
  have hsum : plains.flatten.length ≤ plains.length * blockSize.toNat := by
    have hmap : (plains.map List.length).length = plains.length := List.length_map _
    rw [List.length_flatten, ← smul_eq_mul, ← hmap]
    apply List.sum_le_card_nsmul
    intro k hk
    obtain ⟨p, hp, rfl⟩ := List.mem_map.mp hk
    exact hbound p hp
  rw [hcount] at hsum
  exact hsum.trans_lt (blockCount_mul_lt plainSize blockSize)

/-- A call that fails leaves the destination as it was, or removes it. -/
theorem openFile_error {stream passphrase : Bytes} {dest dest' : Option Bytes} {e : String}
    (h : openFile C J stream passphrase dest = (.error e, dest')) :
    dest' = none ∨ dest' = dest := by
  simp only [openFile] at h
  split at h
  · exact .inr (Prod.mk.inj h).2.symm
  · split at h
    · exact .inr (Prod.mk.inj h).2.symm
    · split_ifs at h
      · exact .inr (Prod.mk.inj h).2.symm
      · exact .inr (Prod.mk.inj h).2.symm
      · split at h
        · exact .inl (Prod.mk.inj h).2.symm
        · split_ifs at h
          · exact .inl (Prod.mk.inj h).2.symm
          · simp at h

theorem decryptStream_eq_some {stream passphrase : Bytes} {head : StreamHeader}
    {plains : List Bytes} (h : decryptStream C stream passphrase = some (head, plains)) :
    kHeaderLen ≤ stream.length ∧ parseHeader (stream.take kHeaderLen) = .ok head ∧
    (C.deriveKey passphrase head.salt Config.kContentKeyLabel head.iterations).length =
      Config.kKeyLen ∧
    decryptBlocks C (C.deriveKey passphrase head.salt Config.kContentKeyLabel head.iterations)
      (stream.take kHeaderLen) head.blockSize (blockCount head.plainSize head.blockSize).toNat 0
      (stream.drop kHeaderLen) = some plains := by
  unfold decryptStream at h
  split_ifs at h with hshort
  cases hparse : parseHeader (stream.take kHeaderLen) with
  | error e => simp [hparse] at h
  | ok head' =>
    simp only [hparse] at h
    split_ifs at h with hkey
    obtain ⟨blocks, hblocks, heq⟩ := Option.map_eq_some_iff.mp h
    obtain ⟨rfl, rfl⟩ := Prod.mk.inj heq
    exact ⟨not_lt.mp hshort, rfl, not_not.mp hkey, hblocks⟩

/-- What a call that reports success has done: all blocks decrypt, the counter of the loop is the
size in the header, the output was opened, and no write failed. The destination holds what is left
after the close. -/
theorem openFile_eq_ok_iff {stream passphrase : Bytes} {dest dest' : Option Bytes} :
    openFile C J stream passphrase dest = (.ok (), dest') ↔
      ∃ head plains, decryptStream C stream passphrase = some (head, plains) ∧
        UInt64.ofNat plains.flatten.length = head.plainSize ∧ J.opensOutput = true ∧
        (∀ k < plains.length, (J.writes k).ok = true) ∧ dest' = some (J.leaves plains) := by
  simp only [openFile, decryptStream]
  by_cases hshort : stream.length < kHeaderLen
  · simp [hshort]
  simp only [if_neg hshort]
  cases hparse : parseHeader (stream.take kHeaderLen) with
  | error e => simp
  | ok head =>
    dsimp only
    split_ifs with hkey hopens
    · simp
    · simp only [hopens, Prod.mk.injEq, reduceCtorEq, false_and, Bool.false_eq_true, and_false,
        exists_false]
    · simp only [Bool.not_eq_false] at hopens
      constructor
      · intro h
        split at h
        · simp at h
        · next done out hloop =>
          split_ifs at h with hdone
          · simp at h
          · obtain ⟨plains, hplains, hwrites, hsum, hout⟩ := (openBlocks_eq_ok_iff rfl).mp hloop
            have hwrites' : ∀ k < plains.length, (J.writes k).ok = true := by simpa using hwrites
            refine ⟨head, plains, by rw [hplains]; rfl, ?_, hopens, hwrites', ?_⟩
            · rw [← not_not.mp hdone, hsum, UInt64.zero_add]
            · rw [← (Prod.mk.inj h).2, hout, OpenStorage.close_eq_leaves hwrites']
      · rintro ⟨head', plains, hdecrypt, hsize, -, hwrites, rfl⟩
        obtain ⟨blocks, hplains, heq⟩ := Option.map_eq_some_iff.mp hdecrypt
        obtain ⟨rfl, rfl⟩ := Prod.mk.inj heq
        have hgood : (OutStream.opened : OutStream UInt8).good = true := rfl
        have hwrites' : ∀ k < blocks.length, (J.writes (0 + k)).ok = true := by simpa using hwrites
        rw [(openBlocks_eq_ok_iff hgood).mpr ⟨blocks, hplains, hwrites', rfl, rfl⟩]
        simp only [UInt64.zero_add, hsize, ne_eq, not_true_eq_false, ↓reduceIte,
          OpenStorage.close_eq_leaves hwrites]

theorem counted_iff (hgcm : C.KeepsLength) {stream passphrase : Bytes} {head : StreamHeader}
    {plains : List Bytes} (h : decryptStream C stream passphrase = some (head, plains)) :
    UInt64.ofNat plains.flatten.length = head.plainSize ↔
      plains.flatten.length = head.plainSize.toNat := by
  have hlt := flatten_length_lt hgcm (decryptStream_eq_some h).2.2.2
  rw [← UInt64.toNat_inj, UInt64.toNat_ofNat_of_lt' hlt]

/-- Opening a stream is all or nothing: on success the destination is the decrypted blocks, as many
bytes as the header says, and after a failure it is as before or gone. It is so exactly when a call
that gets as far as the close has a close that does not fail, or takes what is still buffered
before it does. -/
theorem openFile_whole_iff (hgcm : C.KeepsLength) (J : OpenStorage) (stream passphrase : Bytes)
    (dest : Option Bytes) :
    ((∀ dest', openFile C J stream passphrase dest = (.ok (), dest') →
        ∃ head plains, decryptStream C stream passphrase = some (head, plains) ∧
          dest' = some plains.flatten ∧ plains.flatten.length = head.plainSize.toNat) ∧
      ∀ e dest', openFile C J stream passphrase dest = (.error e, dest') →
        dest' = none ∨ dest' = dest) ↔
    ∀ head plains, decryptStream C stream passphrase = some (head, plains) →
      plains.flatten.length = head.plainSize.toNat → J.opensOutput = true →
      (∀ k < plains.length, (J.writes k).ok = true) →
      J.closing.ok = true ∨
        OutStream.leftOver J.writes 0 0 (plains.map List.length) ≤ J.closing.count := by
  constructor
  · rintro ⟨hok, -⟩ head plains hdecrypt hsize hopens hwrites
    obtain ⟨head', plains', hdecrypt', hdest, -⟩ := hok _ (openFile_eq_ok_iff.mpr
      ⟨head, plains, hdecrypt, (counted_iff hgcm hdecrypt).mpr hsize, hopens, hwrites, rfl⟩)
    obtain ⟨rfl, rfl⟩ := Prod.mk.inj (Option.some.inj (hdecrypt.symm.trans hdecrypt'))
    exact (OpenStorage.leaves_eq_iff hwrites).mp (Option.some.inj hdest)
  · intro hcond
    refine ⟨fun dest' h => ?_, fun e dest' h => openFile_error h⟩
    obtain ⟨head, plains, hdecrypt, hcounted, hopens, hwrites, rfl⟩ := openFile_eq_ok_iff.mp h
    have hsize := (counted_iff hgcm hdecrypt).mp hcounted
    refine ⟨head, plains, hdecrypt, ?_, hsize⟩
    rw [(OpenStorage.leaves_eq_iff hwrites).mpr (hcond head plains hdecrypt hsize hopens hwrites)]

theorem oneByteCrypto_keepsLength : oneByteCrypto.KeepsLength := by
  intro key iv aad cipher tag plain h
  simp only [oneByteCrypto] at h
  split_ifs at h with hcall
  obtain ⟨-, -, -, rfl, -⟩ := hcall
  rw [← Option.some.inj h]
  rfl

def OpenStorage.full : OpenStorage := ⟨true, fun _ => .accept 0, .fail 0⟩

def OpenStorage.early : OpenStorage := ⟨true, fun _ => .accept 1, .fail 0⟩

/-- A close that fails does no harm when nothing is left to be written. -/
theorem openFile_whole_oneByte :
    openFile oneByteCrypto .early oneByteStream (ascii "pw") none = (.ok (), some (ascii "A")) ∧
    ∃ head plains, decryptStream oneByteCrypto oneByteStream (ascii "pw") = some (head, plains) ∧
      some (ascii "A") = some plains.flatten ∧
      plains.flatten.length = head.plainSize.toNat := by
  have hopen : openFile oneByteCrypto .early oneByteStream (ascii "pw") none =
      (.ok (), some (ascii "A")) := by decide +kernel
  have hdecrypt : decryptStream oneByteCrypto oneByteStream (ascii "pw") =
      some (oneByteRun.header, [ascii "A"]) := by decide +kernel
  have hwhole := openFile_whole_iff oneByteCrypto_keepsLength .early oneByteStream (ascii "pw") none
  refine ⟨hopen, (hwhole.mpr fun head plains hblocks _ _ _ => ?_).1 _ hopen⟩
  obtain ⟨-, rfl⟩ := Prod.mk.inj (Option.some.inj (hblocks.symm.trans hdecrypt))
  right
  decide

/-- Success is reported although the destination is left empty. -/
theorem openFile_full :
    openFile oneByteCrypto .full oneByteStream (ascii "pw") none = (.ok (), some []) ∧
    decryptStream oneByteCrypto oneByteStream (ascii "pw") =
      some (oneByteRun.header, [ascii "A"]) := by
  constructor
  · decide +kernel
  · decide +kernel

end PersonalCloud
