import PersonalCloud.Server.Session

/-! The client's end of a connection: the lines its calls send, how it reads the replies, and a
call carried out against a session. Error texts that end in a reply are given without it. -/
namespace PersonalCloud

namespace Remote

open Proto Channel

def loginLine (user password : Bytes) : Bytes := sp kLogin (sp user password)

def wireTag (tag : Bytes) : Bytes := if tag.isEmpty then ascii "-" else tag

def statLine (name : Bytes) : Bytes := sp kStat name

/-- Size and tag first, name last: names may contain spaces. -/
def putFileLine (name tag : Bytes) (size : ℕ) : Bytes :=
  sp kPutFile (sp (Decimal.text size) (sp (wireTag tag) name))

def getFileLine (name : Bytes) : Bytes := sp kGetFile name
def delFileLine (name : Bytes) : Bytes := sp kDelFile name
def putChunkLine (id : Bytes) (size : ℕ) : Bytes := sp kPutChunk (sp id (Decimal.text size))
def getChunkLine (id : Bytes) : Bytes := sp kGetChunk id
def delChunkLine (id : Bytes) : Bytes := sp kDelChunk id

/-- Size and tag of a stored file; `none` stands for a connection that gives no reply. -/
def statReply : Option Bytes → Except String (Option (UInt64 × Bytes))
  | none => .error "no reply to STAT"
  | some reply =>
      match split reply with
      | [] => .error "unexpected STAT reply"
      | head :: args =>
          if head = kNone then .ok none
          else
            match args with
            | [size, tag] =>
                if head ≠ kMeta then .error "unexpected STAT reply"
                else
                  match parseSize size Config.kMaxTransferSize with
                  | none => .error "bad size in STAT reply"
                  | some size => .ok (some (size, if tag = ascii "-" then [] else tag))
            | _ => .error "unexpected STAT reply"

def okReply (missing refused : String) : Option Bytes → Except String Unit
  | none => .error missing
  | some reply => if (split reply).head? = some kOk then .ok () else .error refused

def putFileReply : Option Bytes → Except String Unit :=
  okReply "no reply after upload" "server refused the upload"

def putChunkReply : Option Bytes → Except String Unit :=
  okReply "no reply after chunk upload" "peer refused the chunk"

def delChunkReply : Option Bytes → Except String Unit :=
  okReply "no reply to DELCHUNK" "peer refused the delete"

/-- The announcement of a body: its size, or `none` when there is nothing under the name. -/
def dataReply (missing unexpected badSize : String) : Option Bytes → Except String (Option UInt64)
  | none => .error missing
  | some reply =>
      match split reply with
      | [] => .error unexpected
      | head :: args =>
          if head = kNone then .ok none
          else
            match args with
            | [size] =>
                if head ≠ kData then .error unexpected
                else
                  match parseSize size Config.kMaxTransferSize with
                  | none => .error badSize
                  | some size => .ok (some size)
            | _ => .error unexpected

def getFileReply : Option Bytes → Except String (Option UInt64) :=
  dataReply "no reply to GETFILE" "unexpected GETFILE reply" "bad size in GETFILE reply"

def getChunkReply : Option Bytes → Except String (Option UInt64) :=
  dataReply "no reply to GETCHUNK" "unexpected GETCHUNK reply" "bad size in GETCHUNK reply"

/-- How the write of a downloaded body ends. The last flush is not checked, so data lost there
goes unnoticed. -/
inductive BodyWrite where
  | notOpened
  | failed (k : ℕ)
  | lost (k : ℕ)
  | done

/-- Reads a body of the given size into a file that held `dest`. -/
def readBodyToFile (w : BodyWrite) (size : ℕ) (input : Bytes) (dest : Option Bytes) :
    Except String Unit × Option Bytes :=
  match w with
  | .notOpened => (.error "cannot write", dest)
  | .failed k => (.error "write failed (disk full?)", some ((input.take size).take k))
  | .lost k =>
      if input.length < size then
        (.error "connection dropped during transfer", some ((input.take size).take k))
      else (.ok (), some ((input.take size).take k))
  | .done =>
      if input.length < size then
        (.error "connection dropped during transfer",
          some (input.take (input.length / Config.kIoBufferSize * Config.kIoBufferSize)))
      else (.ok (), some (input.take size))

/-- The result of asking for a chunk when `incoming` is all that arrives: whether it was found,
and the destination file afterwards. -/
def getChunk (w : BodyWrite) (incoming : Bytes) (dest : Option Bytes) :
    Except String Bool × Option Bytes :=
  let line := readLine incoming
  match getChunkReply (line.map Prod.fst) with
  | .error e => (.error e, dest)
  | .ok none => (.ok false, dest)
  | .ok (some size) =>
      match readBodyToFile w size.toNat ((line.map Prod.snd).getD []) dest with
      | (.error e, dest) => (.error e, dest)
      | (.ok (), dest) => (.ok true, dest)

/-- How far a request gets and whether its reply comes back. -/
structure Link where
  delivered : ℕ
  answered : Bool

/-- A request carried out by a session: what it does to the other end's store and the reply line
the client reads. -/
def exchange (env : SessionEnv) (s : SessionState) (l : Link) (line body : Bytes) :
    List DiskStep × Option Bytes :=
  match readLine ((sendLine line ++ body).take l.delivered) with
  | none => ([], none)
  | some (got, rest) =>
      let r := Session.handle env s got rest
      (r.steps, if l.answered then (readLine r.reply).map Prod.fst else none)

def Link.Whole (l : Link) (line body : Bytes) : Prop :=
  (sendLine line ++ body).length ≤ l.delivered ∧ l.answered = true

end Remote

namespace Channel

/-- A line as the client may send it: no byte the framing gives a meaning to. -/
def IsPlain (line : Bytes) : Prop := ∀ c ∈ line, c ≠ 10 ∧ c ≠ 13

instance (line : Bytes) : Decidable (IsPlain line) :=
  inferInstanceAs (Decidable (∀ c ∈ line, c ≠ 10 ∧ c ≠ 13))

theorem readLineFrom_sendLine {line : Bytes} (h : IsPlain line) (rest out : Bytes) :
    readLineFrom (sendLine line ++ rest) out =
      if line.length + out.length ≤ Config.kMaxLineLen ∨ line = [] then some (out ++ line, rest)
      else none := by
  induction line generalizing out with
  | nil => simp [sendLine, readLineFrom]
  | cons c cs ih =>
    obtain ⟨h10, h13⟩ := h c (by simp)
    have hcs : IsPlain cs := fun x hx => h x (List.mem_cons_of_mem _ hx)
    have hstep : sendLine (c :: cs) ++ rest = c :: (sendLine cs ++ rest) := rfl
    rw [hstep, readLineFrom, if_neg h10, if_neg h13]
    by_cases hfull : Config.kMaxLineLen ≤ out.length
    · rw [if_pos hfull, if_neg]
      simp only [List.length_cons, reduceCtorEq, or_false, not_le]
      omega
    · rw [if_neg hfull, ih hcs]
      refine if_congr ?_ (by simp) rfl
      simp only [List.length_cons, List.length_append, List.length_nil, reduceCtorEq, or_false]
      constructor
      · rintro (hle | rfl)
        · omega
        · simp only [List.length_nil]
          omega
      · intro hle
        left
        omega

/-- A line without control bytes is read back whole, unless it is too long to be read at all. -/
theorem readLine_sendLine {line : Bytes} (h : IsPlain line) (rest : Bytes) :
    readLine (sendLine line ++ rest) =
      if line.length ≤ Config.kMaxLineLen then some (line, rest) else none := by
  rw [readLine, readLineFrom_sendLine h]
  refine if_congr ?_ (by simp) rfl
  simp only [List.length_nil, Nat.add_zero]
  constructor
  · rintro (hle | rfl)
    · exact hle
    · exact Nat.zero_le _
  · exact Or.inl

theorem isPlain_sp {a b : Bytes} (ha : IsPlain a) (hb : IsPlain b) : IsPlain (Proto.sp a b) := by
  intro c hc
  simp only [Proto.sp, List.mem_append, List.mem_cons] at hc
  rcases hc with hc | rfl | hc
  · exact ha c hc
  · decide
  · exact hb c hc

theorem isPlain_text (n : ℕ) : IsPlain (Decimal.text n) := by
  intro c hc
  have hdigit := Decimal.text_digits n c hc
  constructor
  · rintro rfl
    exact absurd hdigit (by decide)
  · rintro rfl
    exact absurd hdigit (by decide)

theorem isPlain_of_isSafeName {name : Bytes} (h : isSafeName name = true) : IsPlain name := by
  unfold isSafeName at h
  split_ifs at h
  intro c hc
  have hsafe := List.all_eq_true.mp h c hc
  constructor
  · rintro rfl
    exact absurd hsafe (by decide)
  · rintro rfl
    exact absurd hsafe (by decide)

theorem isPlain_of_isSafeChunkId {id : Bytes} (h : isSafeChunkId id = true) : IsPlain id := by
  unfold isSafeChunkId at h
  simp only [decide_eq_true_eq, List.all_eq_true] at h
  intro c hc
  constructor
  · rintro rfl
    exact absurd (h.2 10 hc) (by decide)
  · rintro rfl
    exact absurd (h.2 13 hc) (by decide)

end Channel

namespace Session

open Proto Remote

variable (env : SessionEnv) (s : SessionState) (input rest : Bytes)

theorem handle_stat : handle env s (sp kStat rest) input =
    if s.loggedIn = false then fail s (ascii "login-required") input
    else doStat env s (sp kStat rest) input := by
  have hcmd : kStat ≠ kHello ∧ kStat ≠ kPing ∧ kStat ≠ kQuit ∧ kStat ≠ kLogin ∧ kStat ≠ kAuth ∧
      kStat ≠ kPutChunk ∧ kStat ≠ kGetChunk ∧ kStat ≠ kDelChunk := by decide
  have hword : IsWord kStat := by decide
  simp only [handle, split_sp hword, hcmd, ↓reduceIte, true_or, true_and, or_self, false_and]

theorem handle_putFile : handle env s (sp kPutFile rest) input =
    if s.loggedIn = false then fail s (ascii "login-required") input
    else doPutFile env s (sp kPutFile rest) input := by
  have hcmd : kPutFile ≠ kHello ∧ kPutFile ≠ kPing ∧ kPutFile ≠ kQuit ∧ kPutFile ≠ kLogin ∧
      kPutFile ≠ kAuth ∧ kPutFile ≠ kPutChunk ∧ kPutFile ≠ kGetChunk ∧ kPutFile ≠ kDelChunk ∧
      kPutFile ≠ kStat := by decide
  have hword : IsWord kPutFile := by decide
  simp only [handle, split_sp hword, hcmd, ↓reduceIte, true_or, or_true, true_and, or_self,
    false_and]

theorem handle_getFile : handle env s (sp kGetFile rest) input =
    if s.loggedIn = false then fail s (ascii "login-required") input
    else doGetFile env s (sp kGetFile rest) input := by
  have hcmd : kGetFile ≠ kHello ∧ kGetFile ≠ kPing ∧ kGetFile ≠ kQuit ∧ kGetFile ≠ kLogin ∧
      kGetFile ≠ kAuth ∧ kGetFile ≠ kPutChunk ∧ kGetFile ≠ kGetChunk ∧ kGetFile ≠ kDelChunk ∧
      kGetFile ≠ kStat ∧ kGetFile ≠ kPutFile := by decide
  have hword : IsWord kGetFile := by decide
  simp only [handle, split_sp hword, hcmd, ↓reduceIte, true_or, or_true, true_and, or_self,
    false_and]

theorem handle_delFile : handle env s (sp kDelFile rest) input =
    if s.loggedIn = false then fail s (ascii "login-required") input
    else doDelFile env s (sp kDelFile rest) input := by
  have hcmd : kDelFile ≠ kHello ∧ kDelFile ≠ kPing ∧ kDelFile ≠ kQuit ∧ kDelFile ≠ kLogin ∧
      kDelFile ≠ kAuth ∧ kDelFile ≠ kPutChunk ∧ kDelFile ≠ kGetChunk ∧ kDelFile ≠ kDelChunk ∧
      kDelFile ≠ kStat ∧ kDelFile ≠ kPutFile ∧ kDelFile ≠ kGetFile := by decide
  have hword : IsWord kDelFile := by decide
  simp only [handle, split_sp hword, hcmd, ↓reduceIte, true_or, or_true, true_and, or_self,
    false_and]

private theorem handle_chunk {cmd : Bytes} (hword : IsWord cmd)
    (hchunk : cmd = kPutChunk ∨ cmd = kGetChunk ∨ cmd = kDelChunk) :
    handle env s (sp cmd rest) input =
      if s.machineTrusted = false then fail s (ascii "token-required") input
      else if cmd = kPutChunk then doPutChunk env s (cmd :: split rest) input
      else if cmd = kGetChunk then doGetChunk env s (cmd :: split rest) input
      else doDelChunk env s (cmd :: split rest) input := by
  have hkeys : ∀ c ∈ [kPutChunk, kGetChunk, kDelChunk], c ≠ kHello ∧ c ≠ kPing ∧ c ≠ kQuit ∧
      c ≠ kLogin ∧ c ≠ kAuth ∧ c ≠ kStat ∧ c ≠ kPutFile ∧ c ≠ kGetFile ∧ c ≠ kDelFile ∧
      c ≠ kList := by decide
  have hcmd := hkeys cmd (by simpa using hchunk)
  simp only [handle, split_sp hword, hcmd, ↓reduceIte, or_self, false_and, hchunk, true_and]
  rcases hchunk with rfl | rfl | rfl
  · simp
  · simp [show kGetChunk ≠ kPutChunk by decide]
  · simp [show kDelChunk ≠ kPutChunk by decide, show kDelChunk ≠ kGetChunk by decide]

theorem handle_putChunk : handle env s (sp kPutChunk rest) input =
    if s.machineTrusted = false then fail s (ascii "token-required") input
    else doPutChunk env s (kPutChunk :: split rest) input := by
  rw [handle_chunk env s input rest (by decide) (.inl rfl), if_pos rfl]

theorem handle_getChunk : handle env s (sp kGetChunk rest) input =
    if s.machineTrusted = false then fail s (ascii "token-required") input
    else doGetChunk env s (kGetChunk :: split rest) input := by
  have hne : kGetChunk ≠ kPutChunk := by decide
  simp only [handle_chunk env s input rest (by decide) (.inr (.inl rfl)), hne, ↓reduceIte]

theorem handle_delChunk : handle env s (sp kDelChunk rest) input =
    if s.machineTrusted = false then fail s (ascii "token-required") input
    else doDelChunk env s (kDelChunk :: split rest) input := by
  have hne : kDelChunk ≠ kPutChunk ∧ kDelChunk ≠ kGetChunk := by decide
  simp only [handle_chunk env s input rest (by decide) (.inr (.inr rfl)), hne, ↓reduceIte]

theorem handle_list : handle env s kList input =
    if s.loggedIn = false then fail s (ascii "login-required") input else doList env s input := by
  have hcmd : kList ≠ kHello ∧ kList ≠ kPing ∧ kList ≠ kQuit ∧ kList ≠ kLogin ∧ kList ≠ kAuth ∧
      kList ≠ kPutChunk ∧ kList ≠ kGetChunk ∧ kList ≠ kDelChunk ∧ kList ≠ kStat ∧
      kList ≠ kPutFile ∧ kList ≠ kGetFile ∧ kList ≠ kDelFile := by decide
  have hword : IsWord kList := by decide
  simp only [handle, split_word hword, hcmd, ↓reduceIte, or_true, true_and, or_self, false_and]

theorem handle_quit : handle env s kQuit input = hangUp s kBye input := by
  have hcmd : kQuit ≠ kHello ∧ kQuit ≠ kPing := by decide
  have hword : IsWord kQuit := by decide
  simp only [handle, split_word hword, hcmd, ↓reduceIte]

variable {env s input}

/-- A tag as the client may send it: nothing that would cut the line or the field short. -/
def IsTag (tag : Bytes) : Prop := ∀ c ∈ tag, c ≠ 32 ∧ c ≠ 10 ∧ c ≠ 13

theorem isWord_wireTag {tag : Bytes} (h : IsTag tag) : IsWord (wireTag tag) := by
  unfold wireTag
  split_ifs with hempty
  · decide
  · exact isWord_iff.mpr ⟨by simpa using hempty, fun hc => (h 32 hc).1 rfl⟩

theorem splitN_putFileLine (name : Bytes) {tag : Bytes} (h : IsTag tag) (size : ℕ) :
    splitN (putFileLine name tag size) 4 =
      if wireName name = [] then [kPutFile, Decimal.text size, wireTag tag]
      else [kPutFile, Decimal.text size, wireTag tag, wireName name] := by
  rw [putFileLine, splitN_sp (by decide) _ 2, splitN_sp (isWord_text size) _ 1,
    splitN_two (isWord_wireTag h)]
  split_ifs <;> rfl

theorem doStat_statLine {name : Bytes} (hn : wireName name ≠ []) :
    doStat env s (statLine name) input =
      match Store.fileInfo env.disk s.user (wireName name) with
      | none => answer s kNone input
      | some (size, tag) =>
          answer s (sp kMeta (sp (Decimal.text size) (wireTag tag))) input := by
  rw [doStat, statLine, splitN_two (by decide), if_neg hn]
  rfl

/-- What a `PUTFILE` line needs for its body to be received. -/
def PutFileAccepted (s : SessionState) (name : Bytes) (size : ℕ) : Prop :=
  s.loggedIn = true ∧ size ≤ Config.kMaxTransferSize.toNat ∧
    (Store.filePath s.user (wireName name)).isSome = true

theorem wireName_ne_nil_of_filePath {user name : Bytes} {p : Path}
    (h : Store.filePath user (wireName name) = some p) : wireName name ≠ [] := by
  intro hn
  have hsafe := (Store.filePath_eq_some.mp h).2.1
  rw [hn] at hsafe
  exact absurd hsafe (by decide)

theorem handle_putFileLine {name tag : Bytes} (htag : IsTag tag) {size : ℕ} {final : Path}
    (hlogin : s.loggedIn = true) (hsize : size ≤ Config.kMaxTransferSize.toNat)
    (hfinal : Store.filePath s.user (wireName name) = some final) :
    handle env s (putFileLine name tag size) input =
      storeBody env s final size
        (Store.writeTag env.now env.tag s.user (wireName name) (wireTag tag)) input := by
  have hn := wireName_ne_nil_of_filePath hfinal
  have hnat : (UInt64.ofNat size).toNat = size :=
    UInt64.toNat_ofNat_of_lt' (hsize.trans_lt Config.kMaxTransferSize.toNat_lt)
  have hline := splitN_putFileLine name htag size
  rw [if_neg hn] at hline
  rw [putFileLine, handle_putFile, hlogin, if_neg (by decide), ← putFileLine]
  simp only [doPutFile, hline, parseSize_text hsize, hfinal, hnat]

theorem handle_putFileLine_rejected {name tag : Bytes} (htag : IsTag tag) {size : ℕ}
    (h : ¬ PutFileAccepted s name size) :
    ∃ reason, handle env s (putFileLine name tag size) input = fail s reason input := by
  have hline := splitN_putFileLine name htag size
  rw [putFileLine, handle_putFile, ← putFileLine]
  by_cases hlogin : s.loggedIn = false
  · exact ⟨_, if_pos hlogin⟩
  rw [if_neg hlogin]
  by_cases hn : wireName name = []
  · rw [if_pos hn] at hline
    exact ⟨ascii "malformed-putfile", by simp only [doPutFile, hline]⟩
  rw [if_neg hn] at hline
  by_cases hsize : size ≤ Config.kMaxTransferSize.toNat
  · have hpath : Store.filePath s.user (wireName name) = none := by
      by_contra hsome
      exact h ⟨by simpa using hlogin, hsize, Option.isSome_iff_ne_none.mpr hsome⟩
    exact ⟨ascii "bad-name", by simp only [doPutFile, hline, parseSize_text hsize, hpath]⟩
  · exact ⟨ascii "bad-size",
      by simp only [doPutFile, hline, parseSize_text_eq_none (not_le.mp hsize)]⟩

theorem handle_putChunkLine {id : Bytes} {size : ℕ} {final : Path}
    (htrust : s.machineTrusted = true) (hsize : size ≤ Config.kMaxTransferSize.toNat)
    (hfinal : Store.chunkPath id = some final) :
    handle env s (putChunkLine id size) input = storeBody env s final size [] input := by
  have hid : isSafeChunkId id = true := by
    unfold Store.chunkPath at hfinal
    split_ifs at hfinal with hid
    exact hid
  have hnat : (UInt64.ofNat size).toNat = size :=
    UInt64.toNat_ofNat_of_lt' (hsize.trans_lt Config.kMaxTransferSize.toNat_lt)
  rw [putChunkLine, handle_putChunk, htrust, if_neg (by decide),
    split_sp (isWord_of_isSafeChunkId hid), split_word (isWord_text size)]
  simp only [doPutChunk, hfinal, parseSize_text hsize, hnat]

theorem handle_putChunkLine_rejected {id : Bytes} (hid : isSafeChunkId id = true) {size : ℕ}
    (h : ¬ (s.machineTrusted = true ∧ size ≤ Config.kMaxTransferSize.toNat)) :
    ∃ reason, handle env s (putChunkLine id size) input = fail s reason input := by
  rw [putChunkLine, handle_putChunk, split_sp (isWord_of_isSafeChunkId hid),
    split_word (isWord_text size)]
  by_cases htrust : s.machineTrusted = false
  · exact ⟨_, if_pos htrust⟩
  rw [if_neg htrust]
  have hsize : Config.kMaxTransferSize.toNat < size := by
    by_contra hle
    exact h ⟨by simpa using htrust, not_lt.mp hle⟩
  exact ⟨ascii "bad-size", by simp only [doPutChunk, Store.chunkPath, hid, ↓reduceIte,
    parseSize_text_eq_none hsize]⟩

end Session

end PersonalCloud
