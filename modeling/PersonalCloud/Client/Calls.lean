import PersonalCloud.Client.Watch
import PersonalCloud.System.Framing

/-! What a call makes of everything that arrives after it: what it reports to its caller, and where
it leaves the input for the next one. -/
namespace PersonalCloud

open Proto Channel Store

namespace Remote

structure Listed where
  name : Bytes
  size : UInt64
  modified : Int64
  deriving DecidableEq

/-- Downloads of files go the way of `getChunk`, with texts of their own. -/
def getFile (w : BodyWrite) (incoming : Bytes) (dest : Option Bytes) :
    Except String Bool × Option Bytes :=
  let line := readLine incoming
  match getFileReply (line.map Prod.fst) with
  | .error e => (.error e, dest)
  | .ok none => (.ok false, dest)
  | .ok (some size) =>
      match readBodyToFile w size.toNat ((line.map Prod.snd).getD []) dest with
      | (.error e, dest) => (.error e, dest)
      | (.ok (), dest) => (.ok true, dest)

def delFileReply : Option Bytes → Except String Bool
  | none => .error "no reply to DELFILE"
  | some reply =>
      match (split reply).head? with
      | none => .error "server refused the delete"
      | some head =>
          if head = kNone then .ok false
          else if head = kOk then .ok true
          else .error "server refused the delete"

def listReply : Option Bytes → Except String UInt64
  | none => .error "no reply to LIST"
  | some reply =>
      match split reply with
      | [head, count] =>
          if head ≠ kCount then .error "unexpected LIST reply"
          else
            match parseSize count 1000000 with
            | none => .error "implausible file count"
            | some count => .ok count
      | _ => .error "unexpected LIST reply"

/-- A listing line, the name taking the rest of it; a line that does not parse is passed over. -/
def readListed (line : Bytes) : Option Listed :=
  match splitN line 3 with
  | [size, modified, name] =>
      match parseSize size Config.kMaxTransferSize with
      | none => none
      | some size => some ⟨name, size, WatchState.strtoll modified⟩
  | _ => none

/-- The announced number of lines, and what is behind them. -/
def readListing : ℕ → Bytes → Except String (List Listed × Bytes)
  | 0, input => .ok ([], input)
  | n + 1, input =>
      match readLine input with
      | none => .error "listing ended early"
      | some (line, rest) =>
          match readListing n rest with
          | .error e => .error e
          | .ok (out, behind) => .ok ((readListed line).toList ++ out, behind)

def list (incoming : Bytes) : Except String (List Listed × Bytes) :=
  let line := readLine incoming
  match listReply (line.map Prod.fst) with
  | .error e => .error e
  | .ok count => readListing count.toNat ((line.map Prod.snd).getD [])

/-- What a call reports to its caller; a downloaded body lies in the destination file. -/
inductive Reported where
  | confirmed
  | missing
  | info (size : UInt64) (tag : Bytes)
  | body (content : Bytes)
  | listing (files : List Listed)
  deriving DecidableEq

/-- A download to a file that did not exist, and the input behind the line that answered it. -/
def reportBody (behind : Bytes) : Except String Bool × Option Bytes →
    Except String (Reported × Bytes)
  | (.error e, _) => .error e
  | (.ok false, _) => .ok (.missing, behind)
  | (.ok true, dest) => .ok (.body (dest.getD []), behind.drop (dest.getD []).length)

/-- The report of a call on what arrives after it, and the input it leaves. Local files can be
written. -/
def Call.receive (c : Call) (incoming : Bytes) : Except String (Reported × Bytes) :=
  let line := readLine incoming
  let reply := line.map Prod.fst
  let behind := (line.map Prod.snd).getD []
  match c with
  | stat _ => (statReply reply).map fun info =>
      (info.elim .missing fun x => .info x.1 x.2, behind)
  | putFile .. => (putFileReply reply).map fun _ => (.confirmed, behind)
  | getFile _ => reportBody behind (Remote.getFile .done incoming none)
  | delFile _ => (delFileReply reply).map fun found =>
      (if found then .confirmed else .missing, behind)
  | putChunk .. => (putChunkReply reply).map fun _ => (.confirmed, behind)
  | getChunk _ => reportBody behind (Remote.getChunk .done incoming none)
  | delChunk _ => (delChunkReply reply).map fun _ => (.confirmed, behind)
  | list => (Remote.list incoming).map fun x => (.listing x.1, x.2)
  -- the farewell is read and not looked at
  | quit => .ok (.confirmed, behind)

theorem readLine_line {line : Bytes} (hplain : IsPlain line)
    (hlen : line.length ≤ Config.kMaxLineLen) (rest : Bytes) :
    readLine (sendLine line ++ rest) = some (line, rest) := by
  rw [readLine_sendLine hplain, if_pos hlen]

theorem readLine_ok (rest : Bytes) : readLine (sendLine kOk ++ rest) = some (kOk, rest) :=
  readLine_line (by decide) (by decide) rest

theorem readLine_none (rest : Bytes) : readLine (sendLine kNone ++ rest) = some (kNone, rest) :=
  readLine_line (by decide) (by decide) rest

theorem split_ok : split kOk = [kOk] := split_word (by decide)

theorem split_none : split kNone = [kNone] := split_word (by decide)

theorem okReply_confirmed (missing refused : String) :
    okReply missing refused (some kOk) = .ok () := by
  simp [okReply, split_ok]

theorem readLine_body {content : Bytes} (h : content.length ≤ Config.kMaxTransferSize.toNat)
    (more : Bytes) :
    readLine (sendLine (sp kData (Decimal.text content.length)) ++ content ++ more) =
      some (sp kData (Decimal.text content.length), content ++ more) := by
  have hdigits : (Decimal.text content.length).length ≤ 20 := by
    apply Decimal.text_length_le (by omega)
    rw [Config.kMaxTransferSize_toNat] at h
    omega
  have hlen : (sp kData (Decimal.text content.length)).length ≤ Config.kMaxLineLen := by
    have hcmd : kData.length + (20 + 1) ≤ Config.kMaxLineLen := by decide
    simp only [sp, List.length_append, List.length_cons]
    omega
  rw [List.append_assoc]
  exact readLine_line (isPlain_sp (by decide) (isPlain_text _)) hlen _

theorem getFile_data {content : Bytes} (h : content.length ≤ Config.kMaxTransferSize.toNat)
    (more : Bytes) (dest : Option Bytes) :
    getFile .done (sendLine (sp kData (Decimal.text content.length)) ++ content ++ more) dest =
      (.ok true, some content) := by
  have hreply : getFileReply (some (sp kData (Decimal.text content.length))) =
      .ok (some (UInt64.ofNat content.length)) := by
    have hword : IsWord kData := by decide
    have hne : kData ≠ kNone := by decide
    simp [getFileReply, dataReply, split_sp hword, split_word (isWord_text _), parseSize_text h, hne]
  have hnat : (UInt64.ofNat content.length).toNat = content.length :=
    UInt64.toNat_ofNat_of_lt' (h.trans_lt Config.kMaxTransferSize.toNat_lt)
  simp only [getFile, readLine_body h, Option.map_some, hreply, Option.getD_some, hnat]
  simp [readBodyToFile]

theorem getFile_none (more : Bytes) (dest : Option Bytes) :
    getFile .done (sendLine kNone ++ more) dest = (.ok false, dest) := by
  simp [getFile, readLine_none, getFileReply, dataReply, split_none]

theorem getChunk_none (more : Bytes) (dest : Option Bytes) :
    getChunk .done (sendLine kNone ++ more) dest = (.ok false, dest) := by
  simp [getChunk, readLine_none, getChunkReply, dataReply, split_none]

/-- What a listed file becomes on the client. A name loses its leading spaces on the way, and a
file whose name has nothing else is not seen. -/
def listedOf (e : StoredFile) : Option Listed :=
  if wireName e.name = [] then none
  else some ⟨wireName e.name, UInt64.ofNat e.size, Int64.ofInt e.modified⟩

/-- A file whose listing line is read as it was sent. -/
structure Legible (e : StoredFile) : Prop where
  plain : IsPlain e.name
  fits : (Session.listLine e).length ≤ Config.kMaxLineLen
  size : e.size ≤ Config.kMaxTransferSize.toNat
  notBefore : -2 ^ 63 ≤ e.modified
  notAfter : e.modified < 2 ^ 63

theorem isPlain_signedText (z : ℤ) : IsPlain (Decimal.signedText z) := by
  intro c hc
  refine ⟨?_, ?_⟩
  · rintro rfl
    exact Decimal.signedText_not_mem (by decide) (by decide) hc
  · rintro rfl
    exact Decimal.signedText_not_mem (by decide) (by decide) hc

theorem readListed_listLine {e : StoredFile} (h : Legible e) :
    readListed (Session.listLine e) = listedOf e := by
  have hsplit : splitN (Session.listLine e) 3 =
      if wireName e.name = [] then [Decimal.text e.size, Decimal.signedText e.modified]
      else [Decimal.text e.size, Decimal.signedText e.modified, wireName e.name] := by
    rw [Session.listLine, splitN_sp (isWord_text _) _ 1, splitN_two (isWord_signedText _)]
    split_ifs <;> rfl
  have hmodified : WatchState.strtoll (Decimal.signedText e.modified) = Int64.ofInt e.modified := by
    rw [← WatchState.strtoll_signedText (Int64.ofInt e.modified),
      Int64.toInt_ofInt_of_le h.notBefore h.notAfter]
  rw [readListed, hsplit, listedOf]
  split_ifs with hname
  · rfl
  · simp only [parseSize_text h.size, hmodified]

theorem readListing_lines {l : List StoredFile} (h : ∀ e ∈ l, Legible e) (more : Bytes) :
    readListing l.length ((l.flatMap fun e => sendLine (Session.listLine e)) ++ more) =
      .ok (l.filterMap listedOf, more) := by
  induction l with
  | nil => rfl
  | cons e l ih =>
    have he : Legible e := h e (by simp)
    have hplain : IsPlain (Session.listLine e) :=
      isPlain_sp (isPlain_text _) (isPlain_sp (isPlain_signedText _) he.plain)
    simp only [List.length_cons, List.flatMap_cons, List.append_assoc, readListing,
      readLine_line hplain he.fits, ih fun x hx => h x (List.mem_cons_of_mem _ hx),
      readListed_listLine he]
    cases hlisted : listedOf e with
    | none => simp [hlisted]
    | some x => simp [hlisted]

theorem list_reply {l : List StoredFile} (hcount : l.length ≤ 1000000)
    (h : ∀ e ∈ l, Legible e) (more : Bytes) :
    list (sendLine (sp kCount (Decimal.text l.length)) ++
        (l.flatMap fun e => sendLine (Session.listLine e)) ++ more) =
      .ok (l.filterMap listedOf, more) := by
  have hdigits : (Decimal.text l.length).length ≤ 7 := Decimal.text_length_le (by omega) (by omega)
  have hlen : (sp kCount (Decimal.text l.length)).length ≤ Config.kMaxLineLen := by
    have hcmd : kCount.length + (7 + 1) ≤ Config.kMaxLineLen := by decide
    simp only [sp, List.length_append, List.length_cons]
    omega
  have hlimit : l.length ≤ (1000000 : UInt64).toNat := hcount
  have hreply : listReply (some (sp kCount (Decimal.text l.length))) =
      .ok (UInt64.ofNat l.length) := by
    have hword : IsWord kCount := by decide
    simp [listReply, split_sp hword, split_word (isWord_text _), parseSize_text hlimit]
  have hnat : (UInt64.ofNat l.length).toNat = l.length := UInt64.toNat_ofNat_of_lt'
    (hcount.trans_lt (by decide))
  rw [List.append_assoc, list, readLine_line (isPlain_sp (by decide) (isPlain_text _)) hlen]
  simp only [Option.map_some, hreply, Option.getD_some, hnat]
  exact readListing_lines h more

/-- The line `STAT` is answered with. -/
def metaLine (size : ℕ) (tag : Bytes) : Bytes := sp kMeta (sp (Decimal.text size) (wireTag tag))

theorem statReply_metaLine {size : ℕ} {tag : Bytes} (htag : Session.IsTag tag)
    (hsize : size ≤ Config.kMaxTransferSize.toNat) : statReply (some (metaLine size tag)) =
      .ok (some (UInt64.ofNat size, if tag = ascii "-" then [] else tag)) := by
  have hword : IsWord kMeta := by decide
  have hne : kMeta ≠ kNone := by decide
  have hshown : split (wireTag tag) = [wireTag tag] := split_word (Session.isWord_wireTag htag)
  simp only [metaLine, statReply, split_sp hword, split_sp (isWord_text _), hshown, hne, ↓reduceIte,
    ne_eq, not_true_eq_false, parseSize_text hsize]
  by_cases hempty : tag = []
  · subst hempty
    rfl
  · have hsame : wireTag tag = tag := if_neg (by simpa using hempty)
    rw [hsame]

end Remote

end PersonalCloud
