import PersonalCloud.Core.Cipher
import PersonalCloud.Server.Http

/-! Strings in a small flat JSON object: how they are written, and what the reader makes of them. -/
namespace PersonalCloud

namespace Http

def jsonEscapeByte (c : UInt8) : Bytes :=
  if c = 34 ∨ c = 92 then [92, c]
  else if c = 10 then [92, 110]
  else if c = 13 then [92, 114]
  else if c = 9 then [92, 116]
  else if c < 32 then [92, 117] ++ toHex [0, c]
  else [c]

def jsonEscape (text : Bytes) : Bytes := text.flatMap jsonEscapeByte

/-- One member whose value is a string that is already escaped. -/
def jsonMember (m : Bytes × Bytes) : Bytes := 34 :: (m.1 ++ 34 :: 58 :: 34 :: (m.2 ++ [34]))

def jsonObject (ms : List (Bytes × Bytes)) : Bytes :=
  123 :: (List.intercalate [44] (ms.map jsonMember) ++ [125])

/-- A code for the strings: a byte stands for itself, or it is written behind a backslash. -/
def Escapes (code : UInt8 → Bytes) : Prop :=
  ∀ c, code c = [c] ∧ c ≠ 34 ∧ c ≠ 92 ∨
    ∃ d more, code c = 92 :: d :: more ∧ 34 ∉ more ∧ 92 ∉ more

/-- What is read of one byte. -/
def readBack (code : UInt8 → Bytes) (c : UInt8) : Bytes :=
  match code c with
  | 92 :: d :: more => unescape d :: more
  | other => other

def heard (code : UInt8 → Bytes) (text : Bytes) : Bytes := text.flatMap (readBack code)

theorem jsonEscapeByte_escapes : Escapes jsonEscapeByte := by
  intro c
  have hhex (x : UInt8) (hx : ((decide (48 ≤ x) && decide (x ≤ 57)) ||
      (decide (97 ≤ x) && decide (x ≤ 102))) = false) : x ∉ toHex [0, c] := toHex_not_mem hx
  unfold jsonEscapeByte
  split_ifs with hquote
  · exact .inr ⟨c, [], rfl, by simp, by simp⟩
  · exact .inr ⟨110, [], rfl, by simp, by simp⟩
  · exact .inr ⟨114, [], rfl, by simp, by simp⟩
  · exact .inr ⟨116, [], rfl, by simp, by simp⟩
  · exact .inr ⟨117, toHex [0, c], rfl, hhex 34 (by decide), hhex 92 (by decide)⟩
  · exact .inl ⟨rfl, not_or.mp hquote⟩

section Read

variable {code : UInt8 → Bytes} {text value rest : Bytes}

theorem jsonValue_quote : jsonValue (34 :: rest) value = some value := by
  cases rest with
  | nil => simp [jsonValue]
  | cons d rest => simp [jsonValue]

theorem jsonValue_plain {c : UInt8} (hquote : c ≠ 34) (hslash : c ≠ 92) (hrest : rest ≠ []) :
    jsonValue (c :: rest) value =
      if Config.kMaxLineLen < (value ++ [c]).length then none
      else jsonValue rest (value ++ [c]) := by
  cases rest with
  | nil => exact absurd rfl hrest
  | cons d rest => simp [jsonValue, hquote, hslash]

theorem jsonValue_backslash (d : UInt8) : jsonValue (92 :: d :: rest) value =
    if Config.kMaxLineLen < (value ++ [unescape d]).length then none
    else jsonValue rest (value ++ [unescape d]) := by
  rw [jsonValue, if_neg (by decide), if_pos rfl]

theorem jsonValue_plains {more : Bytes} (hquote : 34 ∉ more) (hslash : 92 ∉ more)
    (hrest : rest ≠ []) (hvalue : value.length ≤ Config.kMaxLineLen) :
    jsonValue (more ++ rest) value =
      if Config.kMaxLineLen < (value ++ more).length then none
      else jsonValue rest (value ++ more) := by
  induction more generalizing value with
  | nil => simp [Nat.not_lt.mpr hvalue]
  | cons c more ih =>
    obtain ⟨hc, hmore⟩ : c ≠ 34 ∧ 34 ∉ more := by simpa [eq_comm] using hquote
    obtain ⟨hc', hmore'⟩ : c ≠ 92 ∧ 92 ∉ more := by simpa [eq_comm] using hslash
    have hassoc : value ++ c :: more = value ++ [c] ++ more := by simp
    rw [List.cons_append, jsonValue_plain hc hc' (by simp [hrest]), hassoc]
    by_cases hlen : Config.kMaxLineLen < (value ++ [c]).length
    · have hmorelen : Config.kMaxLineLen < (value ++ [c] ++ more).length := by
        rw [List.length_append]
        omega
      rw [if_pos hlen, if_pos hmorelen]
    · rw [if_neg hlen, ih hmore hmore' (not_lt.mp hlen)]

/-- One byte of a string adds what is read of it, up to the longest value. -/
theorem jsonValue_code (hcode : Escapes code) (c : UInt8) (hrest : rest ≠ []) :
    jsonValue (code c ++ rest) value =
      if Config.kMaxLineLen < (value ++ readBack code c).length then none
      else jsonValue rest (value ++ readBack code c) := by
  rcases hcode c with ⟨hself, hquote, hslash⟩ | ⟨d, more, hesc, hquote, hslash⟩
  · have hread : readBack code c = [c] := by
      simp [readBack, hself]
    rw [hread, hself]
    exact jsonValue_plain hquote hslash hrest
  · have hread : readBack code c = [unescape d] ++ more := by
      simp [readBack, hesc]
    have hassoc : value ++ ([unescape d] ++ more) = value ++ [unescape d] ++ more := by simp
    rw [hread, hesc, hassoc, List.cons_append, List.cons_append, jsonValue_backslash]
    by_cases hlen : Config.kMaxLineLen < (value ++ [unescape d]).length
    · have hmorelen : Config.kMaxLineLen < (value ++ [unescape d] ++ more).length := by
        rw [List.length_append]
        omega
      rw [if_pos hlen, if_pos hmorelen]
    · rw [if_neg hlen, jsonValue_plains hquote hslash hrest (not_lt.mp hlen)]

theorem jsonValue_coded (hcode : Escapes code) (text : Bytes)
    (hvalue : value.length ≤ Config.kMaxLineLen) :
    jsonValue (text.flatMap code ++ 34 :: rest) value =
      if Config.kMaxLineLen < (value ++ heard code text).length then none
      else some (value ++ heard code text) := by
  induction text generalizing value with
  | nil => simp [heard, jsonValue_quote, Nat.not_lt.mpr hvalue]
  | cons c text ih =>
    have hassoc : value ++ heard code (c :: text) =
        value ++ readBack code c ++ heard code text := by simp [heard]
    rw [List.flatMap_cons, List.append_assoc, jsonValue_code hcode c (by simp), hassoc]
    by_cases hlen : Config.kMaxLineLen < (value ++ readBack code c).length
    · have hmorelen : Config.kMaxLineLen < (value ++ readBack code c ++ heard code text).length := by
        rw [List.length_append]
        omega
      rw [if_pos hlen, if_pos hmorelen]
    · rw [if_neg hlen, ih (not_lt.mp hlen)]

end Read

/-- Every quote stands behind a backslash, where `last` is the byte in front. -/
def Guarded : UInt8 → Bytes → Prop
  | _, [] => True
  | last, c :: cs => (c = 34 → last = 92) ∧ Guarded c cs

section Search

variable {code : UInt8 → Bytes} {last : UInt8} {w rest name key : Bytes}

theorem guarded_of_not_mem (h : 34 ∉ w) (last : UInt8) : Guarded last w := by
  induction w generalizing last with
  | nil => trivial
  | cons c w ih =>
    obtain ⟨hc, hw⟩ : c ≠ 34 ∧ 34 ∉ w := by simpa [eq_comm] using h
    exact ⟨fun he => absurd he hc, ih hw c⟩

theorem guarded_append {v : Bytes} (hv : Guarded last v) (hw : ∀ last, Guarded last w) :
    Guarded last (v ++ w) := by
  induction v generalizing last with
  | nil => exact hw last
  | cons c v ih => exact ⟨hv.1, ih hv.2⟩

theorem guarded_flatMap (hcode : Escapes code) (text : Bytes) (last : UInt8) :
    Guarded last (text.flatMap code) := by
  induction text generalizing last with
  | nil => trivial
  | cons c text ih =>
    rw [List.flatMap_cons]
    refine guarded_append ?_ ih
    rcases hcode c with ⟨hself, hquote, -⟩ | ⟨d, more, hesc, hquote, -⟩
    · rw [hself]
      exact ⟨fun he => absurd he hquote, trivial⟩
    · rw [hesc]
      exact ⟨fun he => absurd he (by decide), fun _ => rfl, guarded_of_not_mem hquote d⟩

/-- Behind a quote, a name and a quote are a whole guarded string and its end. -/
theorem quoted_name_eq (hname : 34 ∉ name) (hslash : 92 ∉ name) (hlast : last ≠ 92)
    (hw : Guarded last w) (h : name ++ [34] <+: w ++ 34 :: rest) : w = name := by
  induction name generalizing w last with
  | nil =>
    cases w with
    | nil => rfl
    | cons c w =>
      obtain ⟨rfl, -⟩ : 34 = c ∧ [] <+: w ++ 34 :: rest := by simpa using h
      exact absurd (hw.1 rfl) hlast
  | cons d name ih =>
    obtain ⟨hd, hname⟩ : d ≠ 34 ∧ 34 ∉ name := by simpa [eq_comm] using hname
    obtain ⟨hd', hslash⟩ : d ≠ 92 ∧ 92 ∉ name := by simpa [eq_comm] using hslash
    cases w with
    | nil => exact absurd (List.cons_prefix_cons.mp h).1 hd
    | cons c w =>
      obtain ⟨rfl, htail⟩ := List.cons_prefix_cons.mp h
      rw [ih hname hslash hd' hw.2 htail]

theorem behind_skip {c : UInt8} (h : ¬ key <+: c :: rest) :
    behind key (c :: rest) = behind key rest := by
  rw [behind, if_neg (by simpa using h)]

theorem behind_found (h : key ≠ []) : behind key (key ++ rest) = some rest := by
  cases key with
  | nil => exact absurd rfl h
  | cons c key =>
    have hpre : (c :: key).isPrefixOf (c :: (key ++ rest)) = true := by simp
    rw [List.cons_append, behind, if_pos hpre, ← List.cons_append, List.drop_left]

theorem behind_not_mem (h : 34 ∉ w) : behind (34 :: key) (w ++ rest) = behind (34 :: key) rest := by
  induction w with
  | nil => rfl
  | cons c w ih =>
    obtain ⟨hc, hw⟩ : c ≠ 34 ∧ 34 ∉ w := by simpa [eq_comm] using h
    rw [List.cons_append, behind_skip (fun hpre => hc (List.cons_prefix_cons.mp hpre).1.symm), ih hw]

/-- A quoted name is found at the end of a guarded string or behind it. -/
theorem behind_guarded (hname : 34 ∉ name) (hslash : 92 ∉ name) (hw : Guarded last w) :
    behind (34 :: (name ++ [34])) (w ++ 34 :: rest) = some rest ∨
    behind (34 :: (name ++ [34])) (w ++ 34 :: rest) =
      behind (34 :: (name ++ [34])) (34 :: rest) := by
  induction w generalizing last with
  | nil => exact .inr rfl
  | cons c w ih =>
    by_cases hpre : 34 :: (name ++ [34]) <+: c :: (w ++ 34 :: rest)
    · left
      obtain ⟨rfl, htail⟩ := List.cons_prefix_cons.mp hpre
      rw [quoted_name_eq hname hslash (by decide) hw.2 htail]
      have hfound := @behind_found rest (34 :: (name ++ [34])) (List.cons_ne_nil _ _)
      rwa [List.cons_append, List.append_assoc] at hfound
    · rw [List.cons_append, behind_skip hpre]
      exact ih hw.2

theorem cutAt_append {c : UInt8} (h : c ∉ w) : cutAt c (w ++ c :: rest) = some (w, rest) := by
  have hall : ∀ x ∈ w, decide (x ≠ c) = true := by
    intro x hx
    have hne : x ≠ c := by
      rintro rfl
      exact h hx
    simpa using hne
  rw [cutAt, if_pos (by simp), List.takeWhile_append_of_pos hall, List.dropWhile_append_of_pos hall]
  simp

end Search

section Members

variable {code : UInt8 → Bytes} {a b : Bytes} {u p : Bytes}

def IsMemberName (name : Bytes) : Prop := ∀ c ∈ name, 97 ≤ c ∧ c ≤ 122

instance (name : Bytes) : Decidable (IsMemberName name) :=
  inferInstanceAs (Decidable (∀ c ∈ name, 97 ≤ c ∧ c ≤ 122))

theorem IsMemberName.not_mem {name : Bytes} (h : IsMemberName name) {c : UInt8}
    (hc : ¬ (97 ≤ c ∧ c ≤ 122)) : c ∉ name := fun hmem => hc (h c hmem)

theorem jsonField_eq {body name pre rest : Bytes} (hpre : 58 ∉ pre)
    (h : behind (34 :: (name ++ [34])) body = some (pre ++ 58 :: 34 :: rest)) :
    jsonField body name = jsonValue rest [] := by
  have hquote : cutAt 34 (34 :: rest) = some ([], rest) := @cutAt_append [] rest 34 List.not_mem_nil
  have hfield : jsonField body name = (behind (34 :: (name ++ [34])) body).bind fun rest =>
      (cutAt 58 rest).bind fun colon => (cutAt 34 colon.2).bind fun quote => jsonValue quote.2 [] :=
    rfl
  rw [hfield, h, Option.bind_some, cutAt_append hpre, Option.bind_some, hquote, Option.bind_some]

theorem jsonObject_pair (a b v w : Bytes) : jsonObject [(a, v), (b, w)] =
    123 :: 34 :: (a ++ 34 :: 58 :: 34 :: (v ++ 34 :: 44 :: 34 ::
      (b ++ 34 :: 58 :: 34 :: (w ++ [34, 125])))) := by
  simp [jsonObject, jsonMember, List.intercalate]

theorem behind_first (a rest : Bytes) :
    behind (34 :: (a ++ [34])) (123 :: 34 :: (a ++ 34 :: rest)) = some rest := by
  rw [behind_skip fun hpre => absurd (List.cons_prefix_cons.mp hpre).1 (by decide)]
  have hfound := @behind_found rest (34 :: (a ++ [34])) (List.cons_ne_nil _ _)
  rwa [List.cons_append, List.append_assoc] at hfound

theorem behind_second (hcode : Escapes code) (ha : IsMemberName a) (hb : IsMemberName b)
    (hne : a ≠ b) (u rest : Bytes) :
    ∃ pre, 58 ∉ pre ∧ behind (34 :: (b ++ [34])) (123 :: 34 :: (a ++ 34 :: 58 :: 34 ::
      (u.flatMap code ++ 34 :: 44 :: 34 :: (b ++ 34 :: 58 :: rest)))) = some (pre ++ 58 :: rest) := by
  have hquote : (34 : UInt8) ∉ b := hb.not_mem (by decide)
  have hslash : (92 : UInt8) ∉ b := hb.not_mem (by decide)
  have hother {c : UInt8} (hc : c ≠ 34) (tail : Bytes) :
      behind (34 :: (b ++ [34])) (c :: tail) = behind (34 :: (b ++ [34])) tail :=
    behind_skip fun hpre => hc (List.cons_prefix_cons.mp hpre).1.symm
  have hend {c : UInt8} (hc : c ≠ 34) (hmem : c ∉ b) (tail : Bytes) :
      behind (34 :: (b ++ [34])) (34 :: c :: tail) = behind (34 :: (b ++ [34])) tail := by
    rw [behind_skip, hother hc]
    intro hpre
    have hhead : b ++ [34] <+: c :: tail := (List.cons_prefix_cons.mp hpre).2
    cases b with
    | nil => exact hc (List.cons_prefix_cons.mp hhead).1.symm
    | cons d b =>
      obtain rfl : d = c := (List.cons_prefix_cons.mp hhead).1
      exact hmem List.mem_cons_self
  -- the name of the first member is another one
  have hfirst (tail : Bytes) : behind (34 :: (b ++ [34])) (34 :: (a ++ 34 :: tail)) =
      behind (34 :: (b ++ [34])) (34 :: tail) := by
    have hguard : Guarded 34 a := guarded_of_not_mem (ha.not_mem (by decide)) 34
    rw [behind_skip fun hpre => hne (quoted_name_eq hquote hslash (by decide) hguard
      (List.cons_prefix_cons.mp hpre).2), behind_not_mem (ha.not_mem (by decide))]
  have hsecond (tail : Bytes) :
      behind (34 :: (b ++ [34])) (34 :: 44 :: 34 :: (b ++ 34 :: tail)) = some tail := by
    have hfound := @behind_found tail (34 :: (b ++ [34])) (List.cons_ne_nil _ _)
    rw [List.cons_append, List.append_assoc] at hfound
    rw [hend (by decide) (hb.not_mem (by decide))]
    exact hfound
  have hcolon : (58 : UInt8) ∉ 44 :: 34 :: (b ++ [34]) := by
    simp [show (58 : UInt8) ∉ b from hb.not_mem (by decide)]
  have hpre : 44 :: 34 :: (b ++ 34 :: 58 :: rest) = 44 :: 34 :: (b ++ [34]) ++ 58 :: rest := by simp
  rw [hother (by decide), hfirst, hend (by decide) (hb.not_mem (by decide))]
  by_cases hvalue : 34 :: (b ++ [34]) <+:
      34 :: (u.flatMap code ++ 34 :: 44 :: 34 :: (b ++ 34 :: 58 :: rest))
  · refine ⟨44 :: 34 :: (b ++ [34]), hcolon, ?_⟩
    have hwhole := quoted_name_eq hquote hslash (by decide)
      (guarded_flatMap hcode u 34) (List.cons_prefix_cons.mp hvalue).2
    have hfound := @behind_found (44 :: 34 :: (b ++ 34 :: 58 :: rest)) (34 :: (b ++ [34]))
      (List.cons_ne_nil _ _)
    rw [List.cons_append, List.append_assoc] at hfound
    rw [hwhole, ← hpre]
    exact hfound
  · rw [behind_skip hvalue]
    rcases @behind_guarded 34 (u.flatMap code) (44 :: 34 :: (b ++ 34 :: 58 :: rest)) b hquote hslash
      (guarded_flatMap hcode u 34) with hfound | hfound
    · exact ⟨44 :: 34 :: (b ++ [34]), hcolon, by rw [hfound, hpre]⟩
    · exact ⟨[], List.not_mem_nil, by rw [hfound, hsecond]; rfl⟩

/-- Each of two members is read as what is heard of its own value. -/
theorem jsonField_pair (hcode : Escapes code) (ha : IsMemberName a) (hb : IsMemberName b)
    (hne : a ≠ b) (u p : Bytes) :
    jsonField (jsonObject [(a, u.flatMap code), (b, p.flatMap code)]) a =
      (if Config.kMaxLineLen < (heard code u).length then none else some (heard code u)) ∧
    jsonField (jsonObject [(a, u.flatMap code), (b, p.flatMap code)]) b =
      (if Config.kMaxLineLen < (heard code p).length then none else some (heard code p)) := by
  have hread (text rest : Bytes) : jsonValue (text.flatMap code ++ 34 :: rest) [] =
      if Config.kMaxLineLen < (heard code text).length then none else some (heard code text) :=
    jsonValue_coded hcode text (Nat.zero_le _)
  rw [jsonObject_pair]
  constructor
  · exact (jsonField_eq List.not_mem_nil (behind_first a _)).trans (hread u _)
  · obtain ⟨pre, hpre, hfound⟩ := behind_second hcode ha hb hne u
      (34 :: (p.flatMap code ++ [34, 125]))
    rw [jsonField_eq hpre hfound, hread]

/-- A control character without a short escape. -/
def HasLongEscape (c : UInt8) : Prop := c < 32 ∧ c ≠ 9 ∧ c ≠ 10 ∧ c ≠ 13

instance : DecidablePred HasLongEscape := fun c =>
  inferInstanceAs (Decidable (c < 32 ∧ c ≠ 9 ∧ c ≠ 10 ∧ c ≠ 13))

theorem readBack_jsonEscapeByte (c : UInt8) : readBack jsonEscapeByte c =
    if HasLongEscape c then 117 :: toHex [0, c] else [c] := by
  by_cases hquote : c = 34 ∨ c = 92
  · rcases hquote with rfl | rfl
    · rfl
    · rfl
  by_cases hshort : c = 10 ∨ c = 13 ∨ c = 9
  · rcases hshort with rfl | rfl | rfl
    · rfl
    · rfl
    · rfl
  obtain ⟨h10, h13, h9⟩ : c ≠ 10 ∧ c ≠ 13 ∧ c ≠ 9 := by simpa [not_or] using hshort
  by_cases hctrl : c < 32
  · have hlong : HasLongEscape c := ⟨hctrl, h9, h10, h13⟩
    have hesc : jsonEscapeByte c = 92 :: 117 :: toHex [0, c] := by
      simp [jsonEscapeByte, hquote, h9, h10, h13, hctrl]
    rw [if_pos hlong, readBack, hesc]
    rfl
  · have hself : jsonEscapeByte c = [c] := by simp [jsonEscapeByte, hquote, h9, h10, h13, hctrl]
    rw [if_neg fun hlong => hctrl hlong.1]
    simp [readBack, hself]

theorem heard_jsonEscape_length (text : Bytes) :
    text.length ≤ (heard jsonEscapeByte text).length ∧
    ((heard jsonEscapeByte text).length = text.length → ∀ c ∈ text, ¬ HasLongEscape c) := by
  induction text with
  | nil => exact ⟨le_rfl, fun _ c hc => absurd hc List.not_mem_nil⟩
  | cons c text ih =>
    have hcons : heard jsonEscapeByte (c :: text) =
        readBack jsonEscapeByte c ++ heard jsonEscapeByte text := rfl
    rw [hcons, readBack_jsonEscapeByte, List.length_append, List.length_cons, List.forall_mem_cons]
    split_ifs with hlong
    · rw [List.length_cons, toHex_length]
      exact ⟨by simp; omega, fun h => absurd h (by simp; omega)⟩
    · rw [List.length_singleton]
      exact ⟨by omega, fun h => ⟨hlong, ih.2 (by omega)⟩⟩

/-- A text is heard as it is exactly if none of its bytes has a long escape. -/
theorem heard_jsonEscape_iff (text : Bytes) :
    heard jsonEscapeByte text = text ↔ ∀ c ∈ text, ¬ HasLongEscape c := by
  constructor
  · exact fun h => (heard_jsonEscape_length text).2 (congrArg List.length h)
  · intro h
    induction text with
    | nil => rfl
    | cons c text ih =>
      have hcons : heard jsonEscapeByte (c :: text) =
          readBack jsonEscapeByte c ++ heard jsonEscapeByte text := rfl
      rw [List.forall_mem_cons] at h
      rw [hcons, readBack_jsonEscapeByte, if_neg h.1, ih h.2, List.singleton_append]

def kUserField : Bytes := ascii "user"
def kPasswordField : Bytes := ascii "password"

/-- The reader gives back what the writer wrote, in either order of the members, exactly if no
character needs a long escape. -/
theorem jsonField_jsonEscape_iff {u p : Bytes} (hu : u.length ≤ Config.kMaxLineLen)
    (hp : p.length ≤ Config.kMaxLineLen) :
    (∀ body ∈ [jsonObject [(kUserField, jsonEscape u), (kPasswordField, jsonEscape p)],
        jsonObject [(kPasswordField, jsonEscape p), (kUserField, jsonEscape u)]],
      jsonField body kUserField = some u ∧ jsonField body kPasswordField = some p) ↔
    (∀ c ∈ u, ¬ HasLongEscape c) ∧ ∀ c ∈ p, ¬ HasLongEscape c := by
  have huser : IsMemberName kUserField := by decide
  have hpassword : IsMemberName kPasswordField := by decide
  have hne : kUserField ≠ kPasswordField := by decide
  have hvalue {text : Bytes} (hlen : text.length ≤ Config.kMaxLineLen) :
      (if Config.kMaxLineLen < (heard jsonEscapeByte text).length then none
        else some (heard jsonEscapeByte text)) = some text ↔ ∀ c ∈ text, ¬ HasLongEscape c := by
    rw [← heard_jsonEscape_iff]
    constructor
    · intro h
      split_ifs at h
      exact Option.some.inj h
    · intro h
      rw [h, if_neg (not_lt.mpr hlen)]
  obtain ⟨hfirst, hsecond⟩ := jsonField_pair jsonEscapeByte_escapes huser hpassword hne u p
  obtain ⟨hfirst', hsecond'⟩ := jsonField_pair jsonEscapeByte_escapes hpassword huser hne.symm p u
  rw [← hvalue hu, ← hvalue hp]
  simp only [List.forall_mem_cons, List.not_mem_nil, false_implies, implies_true, and_true,
    jsonEscape, hfirst, hsecond, hfirst', hsecond']
  tauto

theorem jsonField_jsonEscape_awkward :
    let u := 34 :: kPasswordField
    let p := 58 :: 92 :: 10 :: kUserField ++ [34]
    let body := jsonObject [(kUserField, jsonEscape u), (kPasswordField, jsonEscape p)]
    jsonField body kUserField = some u ∧ jsonField body kPasswordField = some p :=
  (jsonField_jsonEscape_iff (by decide) (by decide)).mpr (by decide) _ (by simp)

/-- The control character 1 is written as an escape that is read as five letters. -/
theorem jsonField_control :
    jsonField (jsonObject [(kUserField, jsonEscape (ascii "ann")), (kPasswordField, jsonEscape [1])])
      kPasswordField = some (ascii "u0001") := by
  decide +kernel

end Members

end Http

end PersonalCloud
