import PersonalCloud.Client.Remote

/-! What one request does to the store at the other end, and what its reply then tells the client,
however far the request gets. -/
namespace PersonalCloud

open Proto Store

namespace Channel

theorem readLineFrom_of_no_break {input : Bytes} (h : 10 ∉ input) (out : Bytes) :
    readLineFrom input out = none := by
  induction input generalizing out with
  | nil => rfl
  | cons c cs ih =>
    have hc : c ≠ 10 := by
      rintro rfl
      simp at h
    have hcs : 10 ∉ cs := fun hmem => h (List.mem_cons_of_mem _ hmem)
    rw [readLineFrom, if_neg hc]
    split_ifs
    · exact ih hcs _
    · rfl
    · exact ih hcs _

theorem readLineFrom_prefix {input out line rest : Bytes}
    (h : readLineFrom input out = some (line, rest)) : out <+: line := by
  induction input generalizing out with
  | nil => simp [readLineFrom] at h
  | cons c cs ih =>
    rw [readLineFrom] at h
    split_ifs at h
    · obtain ⟨rfl, -⟩ : out = line ∧ cs = rest := by simpa using h
      exact List.prefix_rfl
    · exact ih h
    · exact (List.prefix_append out [c]).trans (ih h)

/-- A line that is read has lost its carriage returns and nothing else. -/
theorem readLineFrom_sendLine_eq {line : Bytes} (h : 10 ∉ line) {rest out got rest' : Bytes}
    (hread : readLineFrom (sendLine line ++ rest) out = some (got, rest')) :
    got = out ++ line.filter (· ≠ 13) := by
  induction line generalizing out with
  | nil =>
    obtain ⟨rfl, -⟩ : out = got ∧ rest = rest' := by simpa [sendLine, readLineFrom] using hread
    simp
  | cons c cs ih =>
    have hc : c ≠ 10 := by
      rintro rfl
      simp at h
    have hcs : 10 ∉ cs := fun hmem => h (List.mem_cons_of_mem _ hmem)
    have hstep : sendLine (c :: cs) ++ rest = c :: (sendLine cs ++ rest) := rfl
    rw [hstep, readLineFrom, if_neg hc] at hread
    split_ifs at hread with h13
    · rw [ih hcs hread, List.filter_cons_of_neg (by simpa using h13)]
    · rw [ih hcs hread, List.filter_cons_of_pos (by simpa using h13)]
      simp

end Channel

/-- A client that asks about the name is told the tag: on its way the content of the sidecar loses
carriage returns and the spaces around it. -/
def Store.ShowsTag (d : Disk) (user name tag : Bytes) : Prop :=
  ∃ size shown, fileInfo d user name = some (size, shown) ∧
    split (shown.filter (· ≠ 13)) = [tag]

namespace Remote

open Channel Session

variable {env : SessionEnv} {s : SessionState} {l : Link} {line body : Bytes}

/-- A request does nothing, or its line is handled with as much of the body as arrives. -/
theorem exchange_cases (h : IsPlain line) (env : SessionEnv) (s : SessionState) (l : Link)
    (body : Bytes) :
    exchange env s l line body = ([], none) ∨ ∃ n,
      exchange env s l line body = ((handle env s line (body.take n)).steps,
        if l.answered then (readLine (handle env s line (body.take n)).reply).map Prod.fst
        else none) := by
  unfold exchange
  rcases Nat.lt_or_ge line.length l.delivered with hlt | hle
  · have htake : (sendLine line ++ body).take l.delivered =
        sendLine line ++ body.take (l.delivered - (line.length + 1)) := by
      rw [List.take_append, List.take_of_length_le (by simp [sendLine]; omega)]
      simp [sendLine]
    rw [htake, readLine_sendLine h]
    by_cases hlen : line.length ≤ Config.kMaxLineLen
    · rw [if_pos hlen]
      exact .inr ⟨_, rfl⟩
    · rw [if_neg hlen]
      exact .inl rfl
  · have htake : (sendLine line ++ body).take l.delivered = line.take l.delivered := by
      rw [sendLine, List.append_assoc, List.take_append_of_le_length hle]
    have hbreak : 10 ∉ line.take l.delivered := fun hmem => (h 10 (List.mem_of_mem_take hmem)).1 rfl
    rw [htake, readLine, readLineFrom_of_no_break hbreak]
    exact .inl rfl

theorem exchange_whole (h : IsPlain line) (hlen : line.length ≤ Config.kMaxLineLen)
    (hl : l.Whole line body) : exchange env s l line body =
      ((handle env s line body).steps, (readLine (handle env s line body).reply).map Prod.fst) := by
  unfold exchange
  rw [List.take_of_length_le hl.1, readLine_sendLine h, if_pos hlen]
  simp [hl.2]

theorem okReply_none (missing refused : String) : okReply missing refused none ≠ .ok () := by
  simp [okReply]

theorem okReply_ok (missing refused : String) (rest : Bytes) :
    okReply missing refused ((readLine (sendLine kOk ++ rest)).map Prod.fst) = .ok () := by
  have hplain : IsPlain kOk := by decide
  have hsplit : (split kOk).head? = some kOk := by decide
  have hlen : kOk.length ≤ Config.kMaxLineLen := by decide
  rw [readLine_sendLine hplain, if_pos hlen]
  simp [okReply, hsplit]

theorem readLine_err {reason : Bytes} {got : Bytes × Bytes}
    (h : readLine (sendLine (sp kErr reason)) = some got) : ∃ tail, got.1 = sp kErr tail := by
  have hstart : readLine (sendLine (sp kErr reason)) =
      readLineFrom (reason ++ [10]) (kErr ++ [32]) := rfl
  rw [hstart] at h
  obtain ⟨tail, htail⟩ := readLineFrom_prefix h
  refine ⟨tail, ?_⟩
  rw [← htail, sp, List.append_assoc]
  rfl

theorem okReply_err (missing refused : String) (reason : Bytes) :
    okReply missing refused ((readLine (sendLine (sp kErr reason))).map Prod.fst) ≠ .ok () := by
  cases hread : readLine (sendLine (sp kErr reason)) with
  | none => exact okReply_none missing refused
  | some got =>
    obtain ⟨tail, htail⟩ := readLine_err hread
    have hword : IsWord kErr := by decide
    have hne : kErr ≠ kOk := by decide
    simp [okReply, htail, split_sp hword, hne]

theorem okReply_unanswered {missing refused : String} {reply : Bytes} {answered : Bool}
    (h : okReply missing refused ((readLine reply).map Prod.fst) ≠ .ok ()) :
    okReply missing refused (if answered then (readLine reply).map Prod.fst else none) ≠
      .ok () := by
  split_ifs
  · exact h
  · exact okReply_none missing refused

variable {missing refused : String}

/-- A request whose body is received stores it whole, or leaves nothing behind and is not
confirmed. -/
theorem exchange_stored (hplain : IsPlain line) {content : Bytes} {final : Path}
    {after : List DiskStep} (h : ∀ input, handle env s line input =
      storeBody env s final content.length after input) :
    (exchange env s l line content).1 = [.write (tempPath env.random) ⟨content, env.now⟩,
      .rename (tempPath env.random) final] ++ after ∨
    (okReply missing refused (exchange env s l line content).2 ≠ .ok () ∧
      ∀ st ∈ (exchange env s l line content).1, st.OnTemp env.random) := by
  rcases exchange_cases hplain env s l content with hex | ⟨n, hex⟩
  · rw [hex]
    exact .inr ⟨okReply_none missing refused, by simp⟩
  rw [hex, h]
  rcases storeBody_cases env s final content.length after (content.take n) with
    ⟨hlen, -, hsteps⟩ | ⟨hreply, htemp⟩
  · have hwhole : (content.take n).take content.length = content := by
      rw [List.length_take] at hlen
      rw [List.take_take, List.take_of_length_le (by omega)]
    rw [hsteps, hwhole]
    exact .inl rfl
  · refine .inr ⟨okReply_unanswered ?_, htemp⟩
    rcases hreply with hnone | ⟨reason, herr⟩
    · rw [hnone]
      exact okReply_none missing refused
    · rw [herr]
      exact okReply_err missing refused reason

theorem exchange_rejected (hplain : IsPlain line)
    (h : ∀ input, ∃ reason, handle env s line input = fail s reason input) (content : Bytes) :
    okReply missing refused (exchange env s l line content).2 ≠ .ok () ∧
      ∀ st ∈ (exchange env s l line content).1, st.OnTemp env.random := by
  rcases exchange_cases hplain env s l content with hex | ⟨n, hex⟩
  · rw [hex]
    exact ⟨okReply_none missing refused, by simp⟩
  · obtain ⟨reason, hfail⟩ := h (content.take n)
    rw [hex, hfail]
    exact ⟨okReply_unanswered (okReply_err missing refused reason), by simp [fail, answer]⟩

theorem isPlain_putFileLine {name tag : Bytes} (hname : IsPlain name) (htag : IsTag tag)
    (size : ℕ) : IsPlain (putFileLine name tag size) := by
  have hwire : IsPlain (wireTag tag) := by
    unfold wireTag
    split_ifs
    · decide
    · exact fun c hc => (htag c hc).2
  exact isPlain_sp (by decide) (isPlain_sp (isPlain_text _) (isPlain_sp hwire hname))

/-- `PUTFILE` stores file and tag, or leaves nothing behind and is not confirmed. -/
theorem exchange_putFile {name tag : Bytes} (hname : IsPlain name) (htag : IsTag tag)
    (content : Bytes) :
    (∃ final, filePath s.user (wireName name) = some final ∧
      content.length ≤ Config.kMaxTransferSize.toNat ∧
      (exchange env s l (putFileLine name tag content.length) content).1 =
        uploadSteps (tempPath env.random) final content env.now env.tag s.user (wireName name)
          (wireTag tag)) ∨
    (putFileReply (exchange env s l (putFileLine name tag content.length) content).2 ≠ .ok () ∧
      ∀ st ∈ (exchange env s l (putFileLine name tag content.length) content).1,
        st.OnTemp env.random) := by
  have hplain := isPlain_putFileLine hname htag content.length
  by_cases haccept : PutFileAccepted s name content.length
  · obtain ⟨hlogin, hsize, hpath⟩ := haccept
    obtain ⟨final, hfinal⟩ := Option.isSome_iff_exists.mp hpath
    rcases exchange_stored hplain fun input => handle_putFileLine htag hlogin hsize hfinal with
      hsteps | hnone
    · exact .inl ⟨final, hfinal, hsize, hsteps⟩
    · exact .inr hnone
  · exact .inr (exchange_rejected hplain (fun input => handle_putFileLine_rejected htag haccept)
      content)

theorem putFileReply_whole (henv : env.Sound) {name tag : Bytes} (hname : IsPlain name)
    (htag : IsTag tag) (hlogin : s.loggedIn = true) {final : Path}
    (hfinal : filePath s.user (wireName name) = some final) {content : Bytes}
    (hlen : (putFileLine name tag content.length).length ≤ Config.kMaxLineLen)
    (hl : l.Whole (putFileLine name tag content.length) content) :
    putFileReply (exchange env s l (putFileLine name tag content.length) content).2 = .ok () ↔
      content.length ≤ Config.kMaxTransferSize.toNat := by
  rw [exchange_whole (isPlain_putFileLine hname htag content.length) hlen hl]
  constructor
  · intro hok
    by_contra hsize
    obtain ⟨reason, hfail⟩ := @handle_putFileLine_rejected env s content name tag htag
      content.length (fun h => hsize h.2.1)
    rw [hfail] at hok
    exact okReply_err _ _ reason hok
  · intro hsize
    have hstored : (storeBody env s final content.length
        (writeTag env.now env.tag s.user (wireName name) (wireTag tag)) content).reply =
          sendLine kOk := by
      simp [storeBody, receiveToFile, henv.receives, henv.renames, answer]
    rw [handle_putFileLine htag hlogin hsize hfinal, hstored, ← List.append_nil (sendLine kOk)]
    exact okReply_ok _ _ []

theorem isPlain_putChunkLine {id : Bytes} (hid : isSafeChunkId id = true) (size : ℕ) :
    IsPlain (putChunkLine id size) :=
  isPlain_sp (by decide) (isPlain_sp (isPlain_of_isSafeChunkId hid) (isPlain_text _))

theorem chunkPath_of_safe {id : Bytes} (hid : isSafeChunkId id = true) :
    chunkPath id = some [kChunksDir, id] := if_pos hid

/-- `PUTCHUNK` stores the chunk, or leaves nothing behind and is not confirmed. -/
theorem exchange_putChunk {id : Bytes} (hid : isSafeChunkId id = true) (content : Bytes) :
    (content.length ≤ Config.kMaxTransferSize.toNat ∧
      (exchange env s l (putChunkLine id content.length) content).1 =
        [.write (tempPath env.random) ⟨content, env.now⟩,
          .rename (tempPath env.random) [kChunksDir, id]]) ∨
    (putChunkReply (exchange env s l (putChunkLine id content.length) content).2 ≠ .ok () ∧
      ∀ st ∈ (exchange env s l (putChunkLine id content.length) content).1,
        st.OnTemp env.random) := by
  have hplain := isPlain_putChunkLine hid content.length
  by_cases haccept : s.machineTrusted = true ∧ content.length ≤ Config.kMaxTransferSize.toNat
  · obtain ⟨htrust, hsize⟩ := haccept
    rcases exchange_stored hplain fun input =>
      handle_putChunkLine htrust hsize (chunkPath_of_safe hid) with hsteps | hnone
    · exact .inl ⟨hsize, by rw [hsteps, List.append_nil]⟩
    · exact .inr hnone
  · exact .inr (exchange_rejected hplain (fun input => handle_putChunkLine_rejected hid haccept)
      content)

theorem handle_delChunkLine {id : Bytes} (hid : isSafeChunkId id = true)
    (htrust : s.machineTrusted = true) (input : Bytes) :
    handle env s (delChunkLine id) input = { answer s kOk input with
      steps := if env.removes.file then [.remove [kChunksDir, id]] else [] } := by
  rw [delChunkLine, handle_delChunk, htrust, if_neg (by decide),
    split_word (isWord_of_isSafeChunkId hid)]
  simp only [doDelChunk, chunkPath_of_safe hid]

theorem isPlain_delChunkLine {id : Bytes} (hid : isSafeChunkId id = true) :
    IsPlain (delChunkLine id) := isPlain_sp (by decide) (isPlain_of_isSafeChunkId hid)

theorem exchange_delChunk {id : Bytes} (hid : isSafeChunkId id = true)
    (htrust : s.machineTrusted = true) :
    (exchange env s l (delChunkLine id) []).1 = [] ∨
      (exchange env s l (delChunkLine id) []).1 = [.remove [kChunksDir, id]] := by
  rcases exchange_cases (isPlain_delChunkLine hid) env s l [] with hex | ⟨n, hex⟩
  · rw [hex]
    exact .inl rfl
  · rw [hex, handle_delChunkLine hid htrust]
    by_cases hremoves : env.removes.file = true
    · simp [hremoves]
    · simp [hremoves]

theorem readLine_data (n : ℕ) (rest : Bytes) :
    readLine (sendLine (sp kData (Decimal.text n)) ++ rest) =
      if (sp kData (Decimal.text n)).length ≤ Config.kMaxLineLen then
        some (sp kData (Decimal.text n), rest)
      else none := readLine_sendLine (isPlain_sp (by decide) (isPlain_text n)) rest

theorem getChunkReply_data {n : ℕ} (h : n ≤ Config.kMaxTransferSize.toNat) :
    getChunkReply (some (sp kData (Decimal.text n))) = .ok (some (UInt64.ofNat n)) := by
  have hword : IsWord kData := by decide
  have hnone : kData ≠ kNone := by decide
  simp [getChunkReply, dataReply, split_sp hword, split_word (isWord_text n), hnone,
    parseSize_text h]

theorem getChunk_data {content : Bytes} (h : content.length ≤ Config.kMaxTransferSize.toNat)
    (rest : Bytes) (dest : Option Bytes) :
    getChunk .done (sendLine (sp kData (Decimal.text content.length)) ++ content ++ rest) dest =
      (.ok true, some content) := by
  have hlen : (sp kData (Decimal.text content.length)).length ≤ Config.kMaxLineLen := by
    have hdigits : (Decimal.text content.length).length ≤ 20 := by
      apply Decimal.text_length_le (by omega)
      rw [Config.kMaxTransferSize_toNat] at h
      omega
    simp only [sp, List.length_append, List.length_cons]
    have hcmd : kData.length + (20 + 1) ≤ Config.kMaxLineLen := by decide
    omega
  have hnat : (UInt64.ofNat content.length).toNat = content.length :=
    UInt64.toNat_ofNat_of_lt' (h.trans_lt Config.kMaxTransferSize.toNat_lt)
  have hread := readLine_data content.length (content ++ rest)
  rw [if_pos hlen] at hread
  simp only [getChunk, List.append_assoc, hread, Option.map_some, getChunkReply_data h,
    Option.getD_some, hnat]
  simp [readBodyToFile]

theorem handle_getChunkLine {id : Bytes} (hid : isSafeChunkId id = true)
    (htrust : s.machineTrusted = true) (input : Bytes) :
    handle env s (getChunkLine id) input =
      match env.disk.content [kChunksDir, id] with
      | none => answer s kNone input
      | some content => sendFile env s content input := by
  rw [getChunkLine, handle_getChunk, htrust, if_neg (by decide),
    split_word (isWord_of_isSafeChunkId hid)]
  cases hcontent : env.disk.content [kChunksDir, id] with
  | none => simp only [doGetChunk, chunkPath_of_safe hid, Option.bind_some, hcontent]
  | some content => simp only [doGetChunk, chunkPath_of_safe hid, Option.bind_some, hcontent]

theorem handle_statLine_steps (name input : Bytes) :
    (handle env s (statLine name) input).steps = [] := by
  rw [statLine, handle_stat]
  split_ifs
  · rfl
  · unfold doStat
    split
    · split <;> rfl
    · rfl

theorem isPlain_statLine {name : Bytes} (hname : IsPlain name) : IsPlain (statLine name) :=
  isPlain_sp (by decide) hname

theorem exchange_stat_steps {name : Bytes} (hname : IsPlain name) :
    (exchange env s l (statLine name) []).1 = [] := by
  rcases exchange_cases (isPlain_statLine hname) env s l [] with hex | ⟨n, hex⟩
  · rw [hex]
  · rw [hex]
    exact handle_statLine_steps _ _

theorem tagOf_no_break (d : Disk) (user name : Bytes) : 10 ∉ tagOf d user name := by
  intro hmem
  unfold tagOf at hmem
  cases hcontent : d.content (tagPath user name) with
  | none => simp [hcontent] at hmem
  | some c =>
    simp only [hcontent, Option.map_some, Option.getD_some, firstLine] at hmem
    simpa using List.mem_takeWhile_imp hmem

theorem handle_statLine (name input : Bytes) :
    (∃ reason, handle env s (statLine name) input = fail s reason input) ∨
    (fileInfo env.disk s.user (wireName name) = none ∧
      handle env s (statLine name) input = answer s kNone input) ∨
    ∃ size shown, fileInfo env.disk s.user (wireName name) = some (size, shown) ∧
      handle env s (statLine name) input =
        answer s (sp kMeta (sp (Decimal.text size) (wireTag shown))) input := by
  rw [statLine, handle_stat]
  by_cases hlogin : s.loggedIn = false
  · exact .inl ⟨_, if_pos hlogin⟩
  rw [if_neg hlogin]
  by_cases hn : wireName name = []
  · refine .inl ⟨ascii "malformed-stat", ?_⟩
    rw [doStat, splitN_two (by decide), if_pos hn]
  rw [← statLine, doStat_statLine hn]
  cases hinfo : fileInfo env.disk s.user (wireName name) with
  | none => exact .inr (.inl ⟨rfl, rfl⟩)
  | some info => exact .inr (.inr ⟨info.1, info.2, rfl, rfl⟩)

theorem statReply_meta {size : ℕ} {shown tag : Bytes} {n : UInt64}
    (h : statReply (some (sp kMeta (sp (Decimal.text size) shown))) = .ok (some (n, tag)))
    (htag : tag ≠ []) : split shown = [tag] ∧ tag ≠ ascii "-" := by
  have hmeta : IsWord kMeta := by decide
  have hnone : kMeta ≠ kNone := by decide
  simp only [statReply, split_sp hmeta, split_sp (isWord_text size), hnone, ↓reduceIte] at h
  split at h
  · next size' tag' hargs =>
    obtain ⟨rfl, hshown⟩ : Decimal.text size = size' ∧ split shown = [tag'] := by simpa using hargs
    simp only [ne_eq, not_true_eq_false, ↓reduceIte] at h
    split at h
    · contradiction
    · simp only [Except.ok.injEq, Option.some.injEq, Prod.mk.injEq] at h
      split_ifs at h with hdash
      · exact absurd h.2.symm htag
      · exact ⟨h.2 ▸ hshown, h.2 ▸ hdash⟩
  · contradiction

private theorem no_break_meta (size : ℕ) {shown : Bytes} (h : 10 ∉ shown) :
    10 ∉ sp kMeta (sp (Decimal.text size) (wireTag shown)) := by
  have hwire : 10 ∉ wireTag shown := by
    unfold wireTag
    split_ifs
    · decide
    · exact h
  have hmeta : 10 ∉ kMeta := by decide
  have htext : 10 ∉ Decimal.text size := Decimal.text_not_mem (by decide)
  simp [sp, hmeta, htext, hwire]

private theorem filter_meta (size : ℕ) (field : Bytes) :
    (sp kMeta (sp (Decimal.text size) field)).filter (· ≠ 13) =
      sp kMeta (sp (Decimal.text size) (field.filter (· ≠ 13))) := by
  have hmeta : kMeta.filter (· ≠ 13) = kMeta := by decide
  have htext : (Decimal.text size).filter (· ≠ 13) = Decimal.text size := by
    apply List.filter_eq_self.mpr
    intro c hc
    have hcr : 13 ∉ Decimal.text size := Decimal.text_not_mem (by decide)
    simp only [decide_eq_true_eq]
    rintro rfl
    exact hcr hc
  have hspace (tail : Bytes) : (32 :: tail).filter (· ≠ 13) = 32 :: tail.filter (· ≠ 13) :=
    List.filter_cons_of_pos (by decide)
  simp only [sp, List.filter_append, hspace, hmeta, htext]

/-- A tag that a client is told was read off the sidecar of the file it asked about. -/
theorem showsTag_of_stat {name tag : Bytes} {size : UInt64} (hname : IsPlain name)
    (h : statReply (exchange env s l (statLine name) []).2 = .ok (some (size, tag)))
    (htag : tag ≠ []) : ShowsTag env.disk s.user (wireName name) tag := by
  rcases exchange_cases (isPlain_statLine hname) env s l [] with hex | ⟨n, hex⟩
  · rw [hex] at h
    simp [statReply] at h
  rw [hex] at h
  split_ifs at h
  swap
  · simp [statReply] at h
  rcases handle_statLine name ([].take n) with ⟨reason, hfail⟩ | ⟨-, hnone⟩ |
    ⟨stored, shown, hinfo, hmeta⟩
  · rw [hfail] at h
    cases hread : readLine (sendLine (sp kErr reason)) with
    | none => simp [fail, answer, hread, statReply] at h
    | some got =>
      obtain ⟨tail, htail⟩ := readLine_err hread
      have hword : IsWord kErr := by decide
      have hne : kErr ≠ kNone ∧ kErr ≠ kMeta := by decide
      simp only [fail, answer, hread, Option.map_some, htail, statReply, split_sp hword, hne,
        ↓reduceIte, ne_eq, not_false_eq_true] at h
      split at h <;> contradiction
  · have hread : readLine (sendLine kNone) = some (kNone, []) := by decide
    have hsplit : split kNone = [kNone] := by decide
    rw [hnone] at h
    simp [answer, hread, statReply, hsplit] at h
  · rw [hmeta] at h
    refine ⟨stored, shown, hinfo, ?_⟩
    have hshown : 10 ∉ shown := by
      obtain ⟨p, c, -, -, -, rfl⟩ := fileInfo_eq_some.mp hinfo
      exact tagOf_no_break _ _ _
    cases hread : readLine (sendLine (sp kMeta (sp (Decimal.text stored) (wireTag shown)))) with
    | none => simp [answer, hread, statReply] at h
    | some got =>
      rw [← List.append_nil (sendLine _)] at hread
      have hgot := readLineFrom_sendLine_eq (no_break_meta stored hshown) hread
      rw [List.nil_append, filter_meta] at hgot
      rw [List.append_nil] at hread
      simp only [answer, hread, Option.map_some, hgot] at h
      obtain ⟨hfields, hdash⟩ := statReply_meta h htag
      unfold wireTag at hfields
      split_ifs at hfields
      · have hword : split ((ascii "-").filter (· ≠ 13)) = [ascii "-"] := by decide
        rw [hword] at hfields
        exact absurd (by simpa using hfields.symm) hdash
      · exact hfields

end Remote

end PersonalCloud
