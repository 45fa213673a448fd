import PersonalCloud.Library.Tokens
import PersonalCloud.Library.Decimal

/-! The wire vocabulary, the line splitters and number parser both ends share, the checks on
names coming from the network, and the line framing of a channel. -/
namespace PersonalCloud

abbrev Bytes := List UInt8

def ascii (s : String) : Bytes := s.toList.map fun c => UInt8.ofNat c.toNat

/-- A statement about each byte of a string is decided along the string, not for all bytes there
are. -/
instance (priority := high) Bytes.decidableAll (p : UInt8 → Prop) [DecidablePred p] (l : Bytes) :
    Decidable (∀ x ∈ l, p x) := List.decidableBAll p l

namespace Config

def kProtocol : Bytes := ascii "pcs/4"

def kIoBufferSize : ℕ := 64 * 1024

def kMaxLineLen : ℕ := 4096

/-- Upper bound on any single declared transfer size. -/
def kMaxTransferSize : UInt64 := 1099511627776

def kDataShards : ℕ := 2
def kParityShards : ℕ := 2
def kTotalShards : ℕ := kDataShards + kParityShards

theorem kMaxTransferSize_toNat : kMaxTransferSize.toNat = 2 ^ 40 := by decide

end Config

namespace Proto

def kHello : Bytes := ascii "HELLO"
def kPing : Bytes := ascii "PING"
def kAuth : Bytes := ascii "AUTH"
def kLogin : Bytes := ascii "LOGIN"
def kStat : Bytes := ascii "STAT"
def kPutFile : Bytes := ascii "PUTFILE"
def kGetFile : Bytes := ascii "GETFILE"
def kDelFile : Bytes := ascii "DELFILE"
def kPutChunk : Bytes := ascii "PUTCHUNK"
def kGetChunk : Bytes := ascii "GETCHUNK"
def kDelChunk : Bytes := ascii "DELCHUNK"
def kList : Bytes := ascii "LIST"
def kQuit : Bytes := ascii "QUIT"
def kOk : Bytes := ascii "OK"
def kErr : Bytes := ascii "ERR"
def kPong : Bytes := ascii "PONG"
def kNone : Bytes := ascii "NONE"
def kData : Bytes := ascii "DATA"
def kMeta : Bytes := ascii "META"
def kCount : Bytes := ascii "COUNT"
def kBye : Bytes := ascii "BYE"

def isSpace (c : UInt8) : Bool := c == 32

/-- Splits a line on spaces; empty fields are dropped. -/
def split (line : Bytes) : List Bytes := Tokens.fields isSpace line

/-- Splits into at most `limit` fields, the last one taking the rest of the line. -/
def splitN (line : Bytes) (limit : ℕ) : List Bytes := Tokens.fieldsN isSpace limit line

/-- The scan of `split`, each field with the value of `start` at which it is cut out. -/
def splitLocated (line : Bytes) : List (ℕ × Bytes) := Tokens.located isSpace line

/-- The digit loop of `parseSize`, with the wrapping arithmetic of 64-bit words. -/
def parseDigits (limit : UInt64) : Bytes → UInt64 → Option UInt64
  | [], value => some value
  | c :: cs, value =>
      if c < 48 ∨ 57 < c then none
      else
        let digit := UInt64.ofNat (c.toNat - 48)
        -- the guard wraps when `limit < digit`; the second comparison catches that case
        if (limit - digit) / 10 < value then none
        else if limit < value * 10 + digit then none
        else parseDigits limit cs (value * 10 + digit)

def parseSize (text : Bytes) (limit : UInt64) : Option UInt64 :=
  if text.isEmpty ∨ 20 < text.length then none else parseDigits limit text 0

def parseSizeInto (text : Bytes) (limit out : UInt64) : Bool × UInt64 :=
  match parseSize text limit with
  | some value => (true, value)
  | none => (false, out)

/-- The pairs of `value` and `digit` on which the loop evaluates `value * 10 + digit`, in order. -/
def parseRounds (limit : UInt64) : Bytes → UInt64 → List (UInt64 × UInt64)
  | [], _ => []
  | c :: cs, value =>
      if c < 48 ∨ 57 < c then []
      else
        let digit := UInt64.ofNat (c.toNat - 48)
        if (limit - digit) / 10 < value then []
        else (value, digit) ::
          if limit < value * 10 + digit then [] else parseRounds limit cs (value * 10 + digit)

/-- A name as it comes out of the splitter, which skips the spaces in front of it. -/
def wireName (name : Bytes) : Bytes := Tokens.skip isSpace name

/-- Joins two fields with the separator. -/
def sp (a b : Bytes) : Bytes := a ++ 32 :: b

end Proto

/-- Bytes that may not occur in a stored name: controls, separators and `: * ? " < > |`. -/
def unsafeByte (c : UInt8) : Bool :=
  decide (c < 0x20) || c == 0x7F || c == 47 || c == 92 || c == 58 || c == 42 || c == 63 ||
    c == 34 || c == 60 || c == 62 || c == 124

def isSafeName (name : Bytes) : Bool :=
  if name.isEmpty ∨ 255 < name.length then false
  else if name = ascii "." ∨ name = ascii ".." then false
  else if name.head? = some 46 then false
  else name.all fun c => !unsafeByte c

def isSafeChunkId (id : Bytes) : Bool :=
  id.length = 64 ∧
    id.all fun c => (decide (48 ≤ c) && decide (c ≤ 57)) || (decide (97 ≤ c) && decide (c ≤ 102))

namespace Channel

def sendLine (line : Bytes) : Bytes := line ++ [10]

/-- Reads up to the next line feed, dropping carriage returns; `out` is what was read so far.
Fails at the end of the input and on a line longer than `kMaxLineLen`. -/
def readLineFrom : Bytes → Bytes → Option (Bytes × Bytes)
  | [], _ => none
  | c :: cs, out =>
      if c = 10 then some (out, cs)
      else if c = 13 then readLineFrom cs out
      else if Config.kMaxLineLen ≤ out.length then none
      else readLineFrom cs (out ++ [c])

def readLine (input : Bytes) : Option (Bytes × Bytes) := readLineFrom input []

end Channel

namespace Proto

theorem isSpace_space : isSpace 32 = true := rfl

abbrev IsWord (w : Bytes) : Prop := Tokens.IsWord isSpace w

instance (w : Bytes) : Decidable (IsWord w) :=
  decidable_of_iff (w ≠ [] ∧ ∀ x ∈ w, isSpace x = false)
    ⟨fun h => ⟨h.1, h.2⟩, fun h => ⟨h.ne_nil, h.noSep⟩⟩

theorem isWord_iff {w : Bytes} : IsWord w ↔ w ≠ [] ∧ 32 ∉ w := by
  refine ⟨fun h => ⟨h.ne_nil, fun hc => absurd (h.noSep 32 hc) (by decide)⟩, fun h => ⟨h.1, ?_⟩⟩
  intro c hc
  have hne : c ≠ 32 := by
    rintro rfl
    exact h.2 hc
  simpa [isSpace] using hne

@[simp] theorem split_nil : split [] = [] := rfl

theorem split_sp {w : Bytes} (hw : IsWord w) (rest : Bytes) :
    split (sp w rest) = w :: split rest :=
  Tokens.fields_append_sep hw isSpace_space rest

theorem split_word {w : Bytes} (hw : IsWord w) : split w = [w] := Tokens.fields_of_isWord hw

theorem splitN_sp {w : Bytes} (hw : IsWord w) (rest : Bytes) (n : ℕ) :
    splitN (sp w rest) (n + 2) = w :: splitN rest (n + 1) :=
  Tokens.fieldsN_append_sep hw isSpace_space n rest

theorem splitN_one_eq (rest : Bytes) :
    splitN rest 1 = if wireName rest = [] then [] else [wireName rest] := by
  by_cases h : Tokens.skip isSpace rest = []
  · simp [splitN, Tokens.fieldsN_one, Tokens.remainder, wireName, h]
  · simp [splitN, Tokens.fieldsN_one, Tokens.remainder, wireName, h]

theorem splitN_two {w : Bytes} (hw : IsWord w) (rest : Bytes) :
    splitN (sp w rest) 2 = if wireName rest = [] then [w] else [w, wireName rest] := by
  rw [splitN_sp hw rest 0, splitN_one_eq]
  split_ifs <;> rfl

theorem wireName_of_head {name : Bytes} (h : name.head? ≠ some 32) : wireName name = name := by
  apply Tokens.skip_eq_self
  intro x hx
  have hx' : x ≠ 32 := by
    rintro rfl
    exact h hx
  simpa [isSpace] using hx'

theorem wireName_wireName (name : Bytes) : wireName (wireName name) = wireName name :=
  Tokens.skip_skip name

theorem isWord_text (n : ℕ) : IsWord (Decimal.text n) :=
  isWord_iff.mpr ⟨Decimal.text_ne_nil n, Decimal.text_not_mem (by decide)⟩

theorem isWord_signedText (z : ℤ) : IsWord (Decimal.signedText z) :=
  isWord_iff.mpr ⟨Decimal.signedText_ne_nil z, Decimal.signedText_not_mem (by decide) (by decide)⟩

theorem isWord_of_isSafeChunkId {id : Bytes} (h : isSafeChunkId id = true) : IsWord id := by
  unfold isSafeChunkId at h
  simp only [decide_eq_true_eq, List.all_eq_true] at h
  refine isWord_iff.mpr ⟨?_, fun hc => absurd (h.2 32 hc) (by decide)⟩
  rintro rfl
  simp at h

private theorem isDigit_eq (c : UInt8) : Decimal.isDigit c = true ↔ ¬ (c < 48 ∨ 57 < c) := by
  simp only [Decimal.isDigit, Bool.and_eq_true, decide_eq_true_eq, not_or, UInt8.not_lt]

/-- The guard of the digit loop, which wraps where the limit is below the digit. -/
private theorem parseGuard_toNat (limit digit : UInt64) : ((limit - digit) / 10).toNat =
    ((2 ^ 64 - digit.toNat + limit.toNat) % 2 ^ 64) / 10 := by
  rw [UInt64.toNat_div, UInt64.toNat_sub]
  rfl

/-- One round of the digit loop: the wrapping guard and the comparison behind it together
accept exactly when the exact value stays within the limit. -/
private theorem parseDigits_step {limit value : UInt64} {c : UInt8} (hv : value ≤ limit)
    (hc : Decimal.isDigit c = true) (cs : Bytes) :
    parseDigits limit (c :: cs) value =
      if 10 * value.toNat + (c.toNat - 48) ≤ limit.toNat
      then parseDigits limit cs (UInt64.ofNat (10 * value.toNat + (c.toNat - 48))) else none := by
  have hd := (Decimal.isDigit_iff c).mp hc
  have hdigit : (UInt64.ofNat (c.toNat - 48)).toNat = c.toNat - 48 := by
    rw [UInt64.toNat_ofNat']
    omega
  have hlimit := limit.toNat_lt
  have hv' : value.toNat ≤ limit.toNat := UInt64.le_iff_toNat_le.mp hv
  simp only [parseDigits, if_neg ((isDigit_eq c).mp hc)]
  have hguard := parseGuard_toNat limit (UInt64.ofNat (c.toNat - 48))
  rw [hdigit] at hguard
  have hnext : (value * 10 + UInt64.ofNat (c.toNat - 48)).toNat =
      (value.toNat * 10 % 2 ^ 64 + (c.toNat - 48)) % 2 ^ 64 := by
    rw [UInt64.toNat_add, UInt64.toNat_mul, hdigit]
    rfl
  by_cases hle : 10 * value.toNat + (c.toNat - 48) ≤ limit.toNat
  · have hsum : (value * 10 + UInt64.ofNat (c.toNat - 48)).toNat =
        10 * value.toNat + (c.toNat - 48) := by rw [hnext]; omega
    rw [if_neg, if_neg, if_pos hle]
    · congr 1
      apply UInt64.toNat_inj.mp
      rw [hsum, UInt64.toNat_ofNat']
      omega
    · rw [UInt64.lt_iff_toNat_lt, hsum]
      omega
    · rw [UInt64.lt_iff_toNat_lt, hguard]
      omega
  · rw [if_neg hle]
    split_ifs with h1 h2
    · rfl
    · rfl
    · exfalso
      rw [UInt64.lt_iff_toNat_lt, hguard] at h1
      rw [UInt64.lt_iff_toNat_lt, hnext] at h2
      omega

theorem parseDigits_eq (limit value : UInt64) (cs : Bytes) (hv : value ≤ limit) :
    parseDigits limit cs value =
      if (∀ c ∈ cs, Decimal.isDigit c = true) ∧ Decimal.valueFrom value.toNat cs ≤ limit.toNat
      then some (UInt64.ofNat (Decimal.valueFrom value.toNat cs)) else none := by
  induction cs generalizing value with
  | nil => simp [parseDigits, Decimal.valueFrom, UInt64.le_iff_toNat_le.mp hv]
  | cons c cs ih =>
    by_cases hc : Decimal.isDigit c = true
    · rw [parseDigits_step hv hc]
      have hmono := Decimal.le_valueFrom (10 * value.toNat + (c.toNat - 48)) cs
      by_cases hle : 10 * value.toNat + (c.toNat - 48) ≤ limit.toNat
      · have hlimit := limit.toNat_lt
        have hnat : (UInt64.ofNat (10 * value.toNat + (c.toNat - 48))).toNat =
            10 * value.toNat + (c.toNat - 48) := by
          rw [UInt64.toNat_ofNat']
          omega
        rw [if_pos hle, ih _ (UInt64.le_iff_toNat_le.mpr (by rw [hnat]; exact hle)), hnat]
        refine if_congr ?_ rfl rfl
        simp [hc, Decimal.valueFrom]
      · rw [if_neg hle, if_neg]
        rintro ⟨-, h⟩
        have : Decimal.valueFrom value.toNat (c :: cs) =
            Decimal.valueFrom (10 * value.toNat + (c.toNat - 48)) cs := rfl
        omega
    · have hc' : c < 48 ∨ 57 < c := by
        by_contra h
        exact hc ((isDigit_eq c).mpr h)
      simp [parseDigits, hc', hc]

/-- The parser accepts exactly the digit strings of 1 to 20 characters that denote a number
within the limit, and returns that number. -/
theorem parseSize_eq (text : Bytes) (limit : UInt64) :
    parseSize text limit =
      if (text ≠ [] ∧ text.length ≤ 20) ∧ (∀ c ∈ text, Decimal.isDigit c = true) ∧
          Decimal.value text ≤ limit.toNat
      then some (UInt64.ofNat (Decimal.value text)) else none := by
  unfold parseSize
  by_cases h : text.isEmpty = true ∨ 20 < text.length
  · rw [if_pos h, if_neg]
    rintro ⟨⟨h1, h2⟩, -⟩
    rcases h with h | h
    · exact h1 (List.isEmpty_iff.mp h)
    · omega
  · rw [if_neg h, parseDigits_eq limit 0 text (UInt64.zero_le)]
    simp only [not_or, List.isEmpty_iff, not_lt] at h
    simp [h.1, h.2, Decimal.value]

theorem parseSize_text {n : ℕ} {limit : UInt64} (h : n ≤ limit.toNat) :
    parseSize (Decimal.text n) limit = some (UInt64.ofNat n) := by
  have hn : n < 10 ^ 20 := by
    have := limit.toNat_lt
    omega
  rw [parseSize_eq, if_pos]
  · rw [Decimal.value_text]
  · exact ⟨⟨Decimal.text_ne_nil n, Decimal.text_length_le (by omega) hn⟩, Decimal.text_digits n,
      by rw [Decimal.value_text]; exact h⟩

/-- The guard keeps `value * 10 + digit` below `2 ^ 64`, also where it wraps itself: then the limit
is below the digit, and so is the value. -/
private theorem parseGuard_noWrap {limit value digit : UInt64} (hv : value ≤ limit)
    (hdigit : digit.toNat ≤ 9) (hguard : ¬ (limit - digit) / 10 < value) :
    value.toNat * 10 + digit.toNat < 2 ^ 64 := by
  have hlimit := limit.toNat_lt
  have hv' : value.toNat ≤ limit.toNat := UInt64.le_iff_toNat_le.mp hv
  rw [UInt64.lt_iff_toNat_lt, parseGuard_toNat] at hguard
  omega

theorem parseRounds_noWrap {limit value : UInt64} {cs : Bytes} (hv : value ≤ limit)
    {r : UInt64 × UInt64} (hr : r ∈ parseRounds limit cs value) :
    r.1.toNat * 10 + r.2.toNat < 2 ^ 64 := by
  induction cs generalizing value with
  | nil => simp [parseRounds] at hr
  | cons c cs ih =>
    simp only [parseRounds] at hr
    split_ifs at hr with hc hguard hlimit
    · simp at hr
    · simp at hr
    all_goals
      have hdigit : (UInt64.ofNat (c.toNat - 48)).toNat ≤ 9 := by
        have hd := (Decimal.isDigit_iff c).mp ((isDigit_eq c).mpr hc)
        rw [UInt64.toNat_ofNat']
        omega
    · rw [List.mem_singleton] at hr
      subst hr
      exact parseGuard_noWrap hv hdigit hguard
    · rcases List.mem_cons.mp hr with rfl | hr
      · exact parseGuard_noWrap hv hdigit hguard
      · exact ih (UInt64.not_lt.mp hlimit) hr

theorem parseSize_text_eq_none {n : ℕ} {limit : UInt64} (h : limit.toNat < n) :
    parseSize (Decimal.text n) limit = none := by
  rw [parseSize_eq, if_neg]
  rintro ⟨-, -, hle⟩
  rw [Decimal.value_text] at hle
  omega

/-- What `parseSize` accepts: 1 to 20 decimal digits that denote a number within the limit. -/
def SizeText (text : Bytes) (limit : UInt64) : Prop :=
  (1 ≤ text.length ∧ text.length ≤ 20) ∧ (∀ c ∈ text, Decimal.isDigit c = true) ∧
    Decimal.value text ≤ limit.toNat

theorem parseSize_of_sizeText {text : Bytes} {limit : UInt64} (h : SizeText text limit) :
    parseSize text limit = some (UInt64.ofNat (Decimal.value text)) := by
  have hne : text ≠ [] := List.ne_nil_of_length_pos h.1.1
  rw [parseSize_eq, if_pos ⟨⟨hne, h.1.2⟩, h.2⟩]

theorem parseSize_of_not_sizeText {text : Bytes} {limit : UInt64} (h : ¬ SizeText text limit) :
    parseSize text limit = none := by
  rw [parseSize_eq, if_neg]
  rintro ⟨⟨hne, hlen⟩, hdigits⟩
  exact h ⟨⟨List.length_pos_iff.mpr hne, hlen⟩, hdigits⟩

/-- Number parsing is exact whatever the limit: it succeeds on the digit strings of 1 to 20
characters that denote a number within the limit, stores that number and otherwise touches nothing,
and no product or sum on the way leaves the 64-bit range. -/
theorem parseSize_exact (text : Bytes) (limit out : UInt64) :
    ((parseSizeInto text limit out).1 = true ↔ SizeText text limit) ∧
    (SizeText text limit → (parseSizeInto text limit out).2.toNat = Decimal.value text) ∧
    (¬ SizeText text limit → (parseSizeInto text limit out).2 = out) ∧
    (∀ r ∈ parseRounds limit text 0,
      (r.1 * 10).toNat = r.1.toNat * 10 ∧
        (r.1 * 10 + r.2).toNat = r.1.toNat * 10 + r.2.toNat) ∧
    (∀ n : UInt64, n ≤ limit → parseSizeInto (Decimal.text n.toNat) limit out = (true, n)) := by
  have hlimit := limit.toNat_lt
  refine ⟨⟨?_, ?_⟩, ?_, ?_, ?_, ?_⟩
  · intro h
    by_contra hno
    simp [parseSizeInto, parseSize_of_not_sizeText hno] at h
  · intro h
    simp [parseSizeInto, parseSize_of_sizeText h]
  · intro h
    have hvalue : Decimal.value text ≤ limit.toNat := h.2.2
    simp only [parseSizeInto, parseSize_of_sizeText h, UInt64.toNat_ofNat']
    omega
  · intro h
    simp [parseSizeInto, parseSize_of_not_sizeText h]
  · intro r hr
    have hfit := parseRounds_noWrap UInt64.zero_le hr
    have hmul : (r.1 * 10).toNat = r.1.toNat * 10 := by
      rw [UInt64.toNat_mul]
      exact Nat.mod_eq_of_lt (by simp only [UInt64.reduceToNat]; omega)
    refine ⟨hmul, ?_⟩
    rw [UInt64.toNat_add, hmul]
    exact Nat.mod_eq_of_lt hfit
  · intro n hn
    have hparse : parseSize (Decimal.text n.toNat) limit = some (UInt64.ofNat n.toNat) :=
      parseSize_text (UInt64.le_iff_toNat_le.mp hn)
    rw [parseSizeInto, hparse, UInt64.ofNat_toNat]

theorem split_eq_located (line : Bytes) : split line = (splitLocated line).map Prod.snd :=
  (Tokens.located_map_snd line).symm

/-- The two splitters agree: up to the limit the bounded one finds the same fields, and its last
field runs from where the field of the full split starts to the end of the line. So the command is
the same on both, with any limit above one. -/
theorem splitN_agrees_split (line : Bytes) (limit : ℕ) (hlimit : 1 ≤ limit) :
    (∀ hle : limit ≤ (split line).length, ∃ start,
      (splitLocated line)[limit - 1]? = some (start, (split line)[limit - 1]) ∧
      (line.drop start).takeWhile (fun c => !isSpace c) = (split line)[limit - 1] ∧
      splitN line limit = (split line).take (limit - 1) ++ [line.drop start] ∧
      (splitN line limit).length = limit) ∧
    ((split line).length < limit → splitN line limit = split line) ∧
    (2 ≤ limit → (splitN line limit).head? = (split line).head?) := by
  obtain ⟨n, rfl⟩ : ∃ n, limit = n + 1 := ⟨limit - 1, by omega⟩
  have hsplit := split_eq_located line
  have hfields : splitN line (n + 1) = (split line).take n ++
      ((splitLocated line)[n]?.map fun f => line.drop f.1).toList :=
    Tokens.fieldsN_eq_located n line
  refine ⟨fun hle => ?_, fun hlt => ?_, fun htwo => ?_⟩
  · have hn : n < (splitLocated line).length := by
      rw [hsplit, List.length_map] at hle
      omega
    have hat : (split line)[n] = (splitLocated line)[n].2 := by simp [hsplit]
    have hword : Tokens.word isSpace (line.drop (splitLocated line)[n].1) =
        (splitLocated line)[n].2 :=
      Tokens.word_of_mem_locatedFrom rfl (List.getElem_mem hn)
    have hlast : splitN line (n + 1) =
        (split line).take n ++ [line.drop (splitLocated line)[n].1] := by
      simp [hfields, List.getElem?_eq_getElem hn]
    refine ⟨(splitLocated line)[n].1, ?_, ?_, hlast, ?_⟩
    · simp [hat, List.getElem?_eq_getElem hn]
    · simp only [Nat.add_sub_cancel, hat]
      exact hword
    · rw [hlast, List.length_append, List.length_take, List.length_singleton]
      omega
  · have hn : (splitLocated line).length ≤ n := by
      rw [hsplit, List.length_map] at hlt
      omega
    rw [hfields, List.getElem?_eq_none hn, List.take_of_length_le (by omega)]
    simp
  · rw [hfields, List.head?_append]
    cases hline : split line with
    | nil =>
      have hnone : splitLocated line = [] := by
        rw [hsplit] at hline
        exact List.map_eq_nil_iff.mp hline
      simp [hnone]
    | cons cmd rest =>
      obtain ⟨m, rfl⟩ : ∃ m, n = m + 1 := ⟨n - 1, by omega⟩
      simp

theorem splitN_agrees_split_put :
    splitN (ascii "  PUTFILE  7 a  b ") 2 = [ascii "PUTFILE", ascii "7 a  b "] := by
  have h := (splitN_agrees_split (ascii "  PUTFILE  7 a  b ") 2 (by decide)).1
    (by decide)
  obtain ⟨start, hat, -, hsplit, -⟩ := h
  have hstart : (splitLocated (ascii "  PUTFILE  7 a  b "))[1]? = some (11, ascii "7") := by decide
  have heq : start = 11 := by
    rw [hstart] at hat
    simpa using (congrArg (Option.map Prod.fst) hat).symm
  subst heq
  rw [hsplit]
  decide

end Proto
end PersonalCloud
