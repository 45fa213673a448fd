import Mathlib.Data.List.TakeWhile
import PersonalCloud.Library.Decimal

/-! JSON texts as byte strings: a reader after the grammar, and what it makes of a text that is put
together from texts it reads. -/
namespace Json

inductive Value where
  | null
  | bool (b : Bool)
  /-- Numbers are kept as they are written. -/
  | number (literal : List UInt8)
  | string (text : List UInt8)
  | array (elements : List Value)
  | object (members : List (List UInt8 × Value))

/-- Of several members with one name the last one counts. -/
def Value.member (name : List UInt8) : Value → Option Value
  | .object ms => (ms.reverse.find? fun m => m.1 = name).map Prod.snd
  | _ => none

def isSpace (c : UInt8) : Bool := c == 32 || c == 9 || c == 10 || c == 13

def skip (input : List UInt8) : List UInt8 := input.dropWhile isSpace

/-- What follows a byte that has to come next. -/
def expect (c : UInt8) (input : List UInt8) : Option (List UInt8) :=
  match skip input with
  | [] => none
  | d :: rest => if d = c then some rest else none

def hexValue (c : UInt8) : Option ℕ :=
  if 48 ≤ c ∧ c ≤ 57 then some (c.toNat - 48)
  else if 97 ≤ c ∧ c ≤ 102 then some (c.toNat - 87)
  else if 65 ≤ c ∧ c ≤ 70 then some (c.toNat - 55)
  else none

def codeUnit (a b c d : UInt8) : Option ℕ :=
  match hexValue a, hexValue b, hexValue c, hexValue d with
  | some a, some b, some c, some d => some (((a * 16 + b) * 16 + c) * 16 + d)
  | _, _, _, _ => none

/-- A code unit in UTF-8; surrogates are not put together. -/
def unitBytes (u : ℕ) : List UInt8 :=
  if u < 0x80 then [UInt8.ofNat u]
  else if u < 0x800 then [UInt8.ofNat (0xC0 + u / 64), UInt8.ofNat (0x80 + u % 64)]
  else [UInt8.ofNat (0xE0 + u / 4096), UInt8.ofNat (0x80 + u / 64 % 64), UInt8.ofNat (0x80 + u % 64)]

/-- The byte that a letter stands for behind a backslash. -/
def escaped (c : UInt8) : Option UInt8 :=
  if c = 34 ∨ c = 92 ∨ c = 47 then some c
  else if c = 98 then some 8
  else if c = 102 then some 12
  else if c = 110 then some 10
  else if c = 114 then some 13
  else if c = 116 then some 9
  else none

def pushed (more : List UInt8) (r : Option (List UInt8 × List UInt8)) :
    Option (List UInt8 × List UInt8) :=
  r.map fun r => (more ++ r.1, r.2)

/-- A string behind its first quote, up to the last one. -/
def chars : List UInt8 → Option (List UInt8 × List UInt8)
  | [] => none
  | c :: rest =>
      if c = 34 then some ([], rest)
      else if c < 32 then none
      else if c ≠ 92 then pushed [c] (chars rest)
      else
        match rest with
        | [] => none
        | e :: rest =>
            if e = 117 then
              match rest with
              | h₁ :: h₂ :: h₃ :: h₄ :: rest =>
                  match codeUnit h₁ h₂ h₃ h₄ with
                  | none => none
                  | some u => pushed (unitBytes u) (chars rest)
              | _ => none
            else
              match escaped e with
              | none => none
              | some byte => pushed [byte] (chars rest)

def isDigits (cs : List UInt8) : Bool := !cs.isEmpty && cs.all Decimal.isDigit

def isExponent : List UInt8 → Bool
  | [] => true
  | c :: cs =>
      (c == 101 || c == 69) &&
        if cs.head? = some 43 ∨ cs.head? = some 45 then isDigits cs.tail else isDigits cs

def isFraction : List UInt8 → Bool
  | [] => true
  | c :: cs =>
      if c = 46 then
        !(cs.takeWhile Decimal.isDigit).isEmpty && isExponent (cs.dropWhile Decimal.isDigit)
      else isExponent (c :: cs)

/-- Digits without a leading zero, and what may follow them. -/
def isUnsigned (cs : List UInt8) : Bool :=
  let whole := cs.takeWhile Decimal.isDigit
  !whole.isEmpty && (whole.head? != some 48 || whole.length == 1) &&
    isFraction (cs.dropWhile Decimal.isDigit)

def isNumber (cs : List UInt8) : Bool :=
  if cs.head? = some 45 then isUnsigned cs.tail else isUnsigned cs

/-- A literal ends in front of these. -/
def isEnd (c : UInt8) : Bool := isSpace c || c == 44 || c == 93 || c == 125

def literal (token : List UInt8) : Option Value :=
  if token = [110, 117, 108, 108] then some .null
  else if token = [116, 114, 117, 101] then some (.bool true)
  else if token = [102, 97, 108, 115, 101] then some (.bool false)
  else if isNumber token then some (.number token)
  else none

mutual

/-- A value and what follows it; `fuel` bounds the calls, each but those of `elements` and
`members` for a value taking a byte off the input. -/
def value : ℕ → List UInt8 → Option (Value × List UInt8)
  | 0, _ => none
  | fuel + 1, input =>
      match skip input with
      | [] => none
      | c :: rest =>
          if c = 34 then (chars rest).map fun r => (.string r.1, r.2)
          else if c = 91 then
            match expect 93 rest with
            | some rest => some (.array [], rest)
            | none => (elements fuel rest).map fun r => (.array r.1, r.2)
          else if c = 123 then
            match expect 125 rest with
            | some rest => some (.object [], rest)
            | none => (members fuel rest).map fun r => (.object r.1, r.2)
          else
            (literal ((c :: rest).takeWhile fun d => !isEnd d)).map fun v =>
              (v, (c :: rest).dropWhile fun d => !isEnd d)

/-- The elements of an array, one at least, and its end. -/
def elements : ℕ → List UInt8 → Option (List Value × List UInt8)
  | 0, _ => none
  | fuel + 1, input =>
      match value fuel input with
      | none => none
      | some (v, rest) =>
          match expect 44 rest with
          | some rest => (elements fuel rest).map fun r => (v :: r.1, r.2)
          | none => (expect 93 rest).map fun rest => ([v], rest)

/-- The members of an object, one at least, and its end. -/
def members : ℕ → List UInt8 → Option (List (List UInt8 × Value) × List UInt8)
  | 0, _ => none
  | fuel + 1, input =>
      match ((expect 34 input).bind chars).bind fun r => (expect 58 r.2).map fun rest => (r.1, rest) with
      | none => none
      | some (name, rest) =>
          match value fuel rest with
          | none => none
          | some (v, rest) =>
              match expect 44 rest with
              | some rest => (members fuel rest).map fun r => ((name, v) :: r.1, r.2)
              | none => (expect 125 rest).map fun rest => ([(name, v)], rest)

end

def parse (text : List UInt8) : Option Value :=
  (value text.length text).bind fun r => if (skip r.2).isEmpty then some r.1 else none

/-- Between quotes the text is read as the string. -/
def ReadsChars (s text : List UInt8) : Prop := ∀ rest, chars (text ++ 34 :: rest) = some (s, rest)

/-- Behind the text stands nothing that belongs to a literal. -/
def Ends (rest : List UInt8) : Prop := ∀ c ∈ rest.head?, isEnd c = true

/-- The text is read as the value, wherever it stands. -/
def Reads (v : Value) (text : List UInt8) : Prop :=
  ∀ fuel rest, text.length ≤ fuel → Ends rest → value fuel (text ++ rest) = some (v, rest)

def ReadsMember (m : List UInt8 × Value) (text : List UInt8) : Prop :=
  ∃ name body, text = 34 :: (name ++ 34 :: 58 :: body) ∧ ReadsChars m.1 name ∧ Reads m.2 body

/-- A code for the bytes of a string that the reader undoes. -/
def Undone (code : UInt8 → List UInt8) : Prop :=
  ∀ c rest, chars (code c ++ rest) = pushed [c] (chars rest)

theorem ends_nil : Ends [] := by
  intro c hc
  contradiction

theorem ends_cons {c : UInt8} (h : isEnd c = true) (rest : List UInt8) : Ends (c :: rest) := by
  intro d hd
  obtain rfl : c = d := by simpa using hd
  exact h

theorem skip_cons {c : UInt8} (h : isSpace c = false) (rest : List UInt8) :
    skip (c :: rest) = c :: rest := by
  simp [skip, h]

theorem expect_cons {c d : UInt8} (h : isSpace d = false) (rest : List UInt8) :
    expect c (d :: rest) = if d = c then some rest else none := by
  rw [expect, skip_cons h]

theorem chars_quote (rest : List UInt8) : chars (34 :: rest) = some ([], rest) := by
  rw [chars.eq_def]
  rfl

theorem chars_plain {c : UInt8} (hquote : c ≠ 34) (hslash : c ≠ 92) (hcontrol : ¬ c < 32)
    (rest : List UInt8) : chars (c :: rest) = pushed [c] (chars rest) := by
  rw [chars.eq_def]
  simp [hquote, hslash, hcontrol]

theorem chars_escaped {e byte : UInt8} (h : escaped e = some byte) (rest : List UInt8) :
    chars (92 :: e :: rest) = pushed [byte] (chars rest) := by
  have he : e ≠ 117 := by
    rintro rfl
    contradiction
  rw [chars.eq_def]
  simp [he, h]

theorem chars_unit {h₁ h₂ h₃ h₄ : UInt8} {u : ℕ} (h : codeUnit h₁ h₂ h₃ h₄ = some u)
    (rest : List UInt8) :
    chars (92 :: 117 :: h₁ :: h₂ :: h₃ :: h₄ :: rest) = pushed (unitBytes u) (chars rest) := by
  rw [chars.eq_def]
  simp [h]

theorem Undone.readsChars {code : UInt8 → List UInt8} (h : Undone code) (s : List UInt8) :
    ReadsChars s (s.flatMap code) := by
  intro rest
  induction s with
  | nil => exact chars_quote rest
  | cons c s ih =>
    rw [List.flatMap_cons, List.append_assoc, h, ih]
    rfl

theorem ReadsChars.reads {s text : List UInt8} (h : ReadsChars s text) :
    Reads (.string s) (34 :: (text ++ [34])) := by
  intro fuel rest hfuel _
  obtain ⟨fuel, rfl⟩ : ∃ n, fuel = n + 1 := ⟨fuel - 1, by simp at hfuel; omega⟩
  have htext : 34 :: (text ++ [34]) ++ rest = 34 :: (text ++ 34 :: rest) := by simp
  rw [htext, value, skip_cons (by decide)]
  simp [h rest]

theorem ne_of_isDigit {c d : UInt8} (h : Decimal.isDigit c = true)
    (hd : Decimal.isDigit d = false) : c ≠ d := by
  rintro rfl
  rw [h] at hd
  contradiction

theorem isEnd_of_isDigit {c : UInt8} (h : Decimal.isDigit c = true) : isEnd c = false := by
  have hne {d : UInt8} (hd : Decimal.isDigit d = false) : c ≠ d := ne_of_isDigit h hd
  simp [isEnd, isSpace, hne (d := 32) rfl, hne (d := 9) rfl, hne (d := 10) rfl, hne (d := 13) rfl,
    hne (d := 44) rfl, hne (d := 93) rfl, hne (d := 125) rfl]

theorem isSpace_of_isEnd {c : UInt8} (h : isEnd c = false) : isSpace c = false := by
  unfold isEnd at h
  simp only [Bool.or_eq_false_iff] at h
  exact h.1.1.1

theorem literal_head {token : List UInt8} {v : Value} (h : literal token = some v) :
    ∃ c cs, token = c :: cs ∧ isSpace c = false ∧ c ≠ 34 ∧ c ≠ 91 ∧ c ≠ 123 := by
  cases token with
  | nil =>
    simp [literal, isNumber, isUnsigned] at h
  | cons c cs =>
    refine ⟨c, cs, rfl, ?_⟩
    unfold literal at h
    split_ifs at h with hnull htrue hfalse hnumber
    · obtain ⟨rfl, -⟩ := List.cons.inj hnull
      decide
    · obtain ⟨rfl, -⟩ := List.cons.inj htrue
      decide
    · obtain ⟨rfl, -⟩ := List.cons.inj hfalse
      decide
    · by_cases hminus : c = 45
      · subst hminus
        decide
      · have hdigit : Decimal.isDigit c = true := by
          by_contra hc
          simp [isNumber, isUnsigned, hminus, hc] at hnumber
        exact ⟨isSpace_of_isEnd (isEnd_of_isDigit hdigit), ne_of_isDigit hdigit rfl,
          ne_of_isDigit hdigit rfl, ne_of_isDigit hdigit rfl⟩

theorem reads_literal {token : List UInt8} {v : Value} (h : literal token = some v)
    (hend : ∀ c ∈ token, isEnd c = false) : Reads v token := by
  intro fuel rest hfuel hrest
  obtain ⟨c, cs, rfl, hspace, hquote, harray, hobject⟩ := literal_head h
  obtain ⟨fuel, rfl⟩ : ∃ n, fuel = n + 1 := ⟨fuel - 1, by simp at hfuel; omega⟩
  have hstop : rest.takeWhile (fun d => !isEnd d) = [] ∧
      rest.dropWhile (fun d => !isEnd d) = rest := by
    cases rest with
    | nil => exact ⟨rfl, rfl⟩
    | cons d rest => simp [hrest d rfl]
  have hall : ∀ d ∈ c :: cs, (!isEnd d) = true := by
    intro d hd
    rw [hend d hd]
    rfl
  have htake : (c :: cs ++ rest).takeWhile (fun d => !isEnd d) = c :: cs := by
    rw [List.takeWhile_append_of_pos hall, hstop.1, List.append_nil]
  have hdrop : (c :: cs ++ rest).dropWhile (fun d => !isEnd d) = rest := by
    rw [List.dropWhile_append_of_pos hall, hstop.2]
  rw [List.cons_append] at htake hdrop ⊢
  rw [value, skip_cons hspace]
  simp only [if_neg hquote, if_neg harray, if_neg hobject]
  rw [htake, hdrop, h]
  rfl

theorem isUnsigned_text (n : ℕ) : isUnsigned (Decimal.text n) = true := by
  have hdigits := Decimal.text_digits n
  have htake : (Decimal.text n).takeWhile Decimal.isDigit = Decimal.text n :=
    List.takeWhile_eq_self_iff.mpr hdigits
  have hdrop : (Decimal.text n).dropWhile Decimal.isDigit = [] :=
    List.dropWhile_eq_nil_iff.mpr hdigits
  have hne : (Decimal.text n).isEmpty = false := by simp [Decimal.text_ne_nil]
  have hlead : ((Decimal.text n).head? != some 48 || (Decimal.text n).length == 1) = true := by
    by_cases hn : n = 0
    · subst hn
      rfl
    · simp [Decimal.text_head_ne hn]
  simp only [isUnsigned, htake, hdrop, hne, hlead]
  rfl

theorem literal_number {token : List UInt8} (h : isNumber token = true) :
    literal token = some (.number token) := by
  have hword : ∀ word ∈ [[110, 117, 108, 108], [116, 114, 117, 101], [102, 97, 108, 115, 101]],
      isNumber word = false := by decide
  have hne : ∀ word ∈ [[110, 117, 108, 108], [116, 114, 117, 101], [102, 97, 108, 115, 101]],
      token ≠ word := by
    rintro word hmem rfl
    rw [hword token hmem] at h
    contradiction
  simp only [List.mem_cons, List.not_mem_nil, or_false, forall_eq_or_imp, forall_eq] at hne
  simp [literal, hne, h]

theorem reads_signedText (z : ℤ) :
    Reads (.number (Decimal.signedText z)) (Decimal.signedText z) := by
  have hends (n : ℕ) : ∀ c ∈ Decimal.text n, isEnd c = false := fun c hc =>
    isEnd_of_isDigit (Decimal.text_digits n c hc)
  cases z with
  | ofNat n =>
    have hhead : (Decimal.text n).head? ≠ some 45 := by
      intro hhead
      have := Decimal.text_digits n 45 (List.mem_of_head? hhead)
      contradiction
    refine reads_literal (literal_number ?_) (hends n)
    rw [Decimal.signedText, isNumber, if_neg hhead]
    exact isUnsigned_text n
  | negSucc n =>
    refine reads_literal (literal_number (isUnsigned_text (n + 1))) ?_
    intro c hc
    rcases List.mem_cons.mp hc with rfl | hc
    · decide
    · exact hends (n + 1) c hc

theorem reads_text (n : ℕ) : Reads (.number (Decimal.text n)) (Decimal.text n) :=
  reads_signedText n

def separated (texts : List (List UInt8)) : List UInt8 := List.intercalate [44] texts

theorem separated_cons (text : List UInt8) {texts : List (List UInt8)} (h : texts ≠ []) :
    separated (text :: texts) = text ++ 44 :: separated texts := by
  cases texts with
  | nil => exact absurd rfl h
  | cons next texts => simp [separated, List.intercalate]

section Lists

variable {m : List UInt8 × Value} {ms : List (List UInt8 × Value)} {v : Value} {vs : List Value}
  {text : List UInt8} {texts : List (List UInt8)}

theorem expect_eq (c : UInt8) (rest : List UInt8) (h : isSpace c = false) :
    expect c (c :: rest) = some rest := by
  rw [expect_cons h, if_pos rfl]

theorem expect_ne {c d : UInt8} (rest : List UInt8) (h : isSpace d = false) (hne : d ≠ c) :
    expect c (d :: rest) = none := by
  rw [expect_cons h, if_neg hne]

theorem separated_singleton (text : List UInt8) : separated [text] = text := by
  simp [separated, List.intercalate]

theorem elements_separated (hv : Reads v text) (h : List.Forall₂ Reads vs texts) (fuel : ℕ)
    (rest : List UInt8) (hfuel : (separated (text :: texts)).length < fuel) :
    elements fuel (separated (text :: texts) ++ 93 :: rest) = some (v :: vs, rest) := by
  induction h generalizing v text fuel with
  | nil =>
    obtain ⟨fuel, rfl⟩ : ∃ n, fuel = n + 1 := ⟨fuel - 1, by omega⟩
    rw [separated_singleton] at hfuel ⊢
    rw [elements, hv fuel (93 :: rest) (by omega) (ends_cons rfl _)]
    simp only [expect_ne rest (c := 44) (d := 93) rfl (by decide), expect_eq 93 rest rfl]
    rfl
  | @cons w next ws nexts hw htail ih =>
    obtain ⟨fuel, rfl⟩ : ∃ n, fuel = n + 1 := ⟨fuel - 1, by omega⟩
    have htext : separated (text :: next :: nexts) ++ 93 :: rest =
        text ++ 44 :: (separated (next :: nexts) ++ 93 :: rest) := by
      rw [separated_cons text (List.cons_ne_nil _ _), List.append_assoc, List.cons_append]
    rw [separated_cons text (List.cons_ne_nil _ _), List.length_append, List.length_cons] at hfuel
    rw [htext, elements, hv fuel _ (by omega) (ends_cons rfl _)]
    simp only [expect_eq 44 _ rfl, ih hw fuel (by omega)]
    rfl

theorem ReadsMember.members_eq (h : ReadsMember m text) {fuel : ℕ} (rest : List UInt8)
    (hfuel : text.length ≤ fuel) (hrest : Ends rest) :
    members (fuel + 1) (text ++ rest) =
      match expect 44 rest with
      | some rest => (members fuel rest).map fun r => (m :: r.1, r.2)
      | none => (expect 125 rest).map fun rest => ([m], rest) := by
  obtain ⟨name, body, rfl, hname, hbody⟩ := h
  have htext : 34 :: (name ++ 34 :: 58 :: body) ++ rest =
      34 :: (name ++ 34 :: (58 :: (body ++ rest))) := by simp
  have hbodyfuel : body.length ≤ fuel := by
    simp only [List.length_cons, List.length_append] at hfuel
    omega
  rw [htext, members, expect_eq 34 _ rfl, Option.bind_some, hname, Option.bind_some,
    expect_eq 58 _ rfl, Option.map_some]
  simp only [hbody fuel rest hbodyfuel hrest]

theorem members_separated (hm : ReadsMember m text) (h : List.Forall₂ ReadsMember ms texts)
    (fuel : ℕ) (rest : List UInt8) (hfuel : (separated (text :: texts)).length < fuel) :
    members fuel (separated (text :: texts) ++ 125 :: rest) = some (m :: ms, rest) := by
  induction h generalizing m text fuel with
  | nil =>
    obtain ⟨fuel, rfl⟩ : ∃ n, fuel = n + 1 := ⟨fuel - 1, by omega⟩
    rw [separated_singleton] at hfuel ⊢
    rw [hm.members_eq _ (by omega) (ends_cons rfl _)]
    simp only [expect_ne rest (c := 44) (d := 125) rfl (by decide), expect_eq 125 rest rfl]
    rfl
  | @cons w next ws nexts hw htail ih =>
    obtain ⟨fuel, rfl⟩ : ∃ n, fuel = n + 1 := ⟨fuel - 1, by omega⟩
    have htext : separated (text :: next :: nexts) ++ 125 :: rest =
        text ++ 44 :: (separated (next :: nexts) ++ 125 :: rest) := by
      rw [separated_cons text (List.cons_ne_nil _ _), List.append_assoc, List.cons_append]
    rw [separated_cons text (List.cons_ne_nil _ _), List.length_append, List.length_cons] at hfuel
    rw [htext, hm.members_eq _ (by omega) (ends_cons rfl _)]
    simp only [expect_eq 44 _ rfl, ih hw fuel (by omega)]
    rfl

/-- The text of a value does not begin like the end of a list. -/
theorem Reads.expect_eq_none (h : Reads v text) {c : UInt8} (hc : isEnd c = true)
    (rest : List UInt8) : expect c (text ++ rest) = none := by
  have hread := h (text.length + 1) [] (Nat.le_succ _) ends_nil
  rw [List.append_nil, value] at hread
  cases hskip : skip text with
  | nil =>
    rw [hskip] at hread
    contradiction
  | cons d ds =>
    have hall : skip (text ++ rest) = d :: (ds ++ rest) := by
      have hdrop : text.dropWhile isSpace = d :: ds := hskip
      rw [skip, List.dropWhile_append, hdrop]
      rfl
    have hne : d ≠ c := by
      rintro rfl
      have hother : d ≠ 34 ∧ d ≠ 91 ∧ d ≠ 123 := by
        refine ⟨?_, ?_, ?_⟩ <;> rintro rfl <;> contradiction
      have htoken : (d :: ds).takeWhile (fun d => !isEnd d) = [] := by simp [hc]
      rw [hskip] at hread
      simp only [if_neg hother.1, if_neg hother.2.1, if_neg hother.2.2, htoken] at hread
      contradiction
    simp [expect, hall, hne]

theorem reads_array (h : List.Forall₂ Reads vs texts) :
    Reads (.array vs) (91 :: (separated texts ++ [93])) := by
  intro fuel rest hfuel _
  obtain ⟨fuel, rfl⟩ : ∃ n, fuel = n + 1 := ⟨fuel - 1, by simp at hfuel; omega⟩
  have htext : 91 :: (separated texts ++ [93]) ++ rest = 91 :: (separated texts ++ 93 :: rest) := by
    simp
  rw [htext, value, skip_cons rfl]
  simp only [if_neg (show (91 : UInt8) ≠ 34 by decide), ↓reduceIte]
  cases h with
  | nil =>
    have hempty : separated [] ++ 93 :: rest = 93 :: rest := rfl
    rw [hempty, expect_eq 93 rest rfl]
  | @cons w next ws nexts hw htail =>
    have hfuel' : (separated (next :: nexts)).length < fuel := by
      simp only [List.length_cons, List.length_append, List.length_nil] at hfuel
      omega
    have hfirst : expect 93 (separated (next :: nexts) ++ 93 :: rest) = none := by
      cases nexts with
      | nil =>
        rw [separated_singleton]
        exact hw.expect_eq_none rfl _
      | cons other nexts =>
        rw [separated_cons next (List.cons_ne_nil _ _), List.append_assoc]
        exact hw.expect_eq_none rfl _
    rw [hfirst, elements_separated hw htail fuel rest hfuel']
    rfl

theorem reads_object (h : List.Forall₂ ReadsMember ms texts) :
    Reads (.object ms) (123 :: (separated texts ++ [125])) := by
  intro fuel rest hfuel _
  obtain ⟨fuel, rfl⟩ : ∃ n, fuel = n + 1 := ⟨fuel - 1, by simp at hfuel; omega⟩
  have htext : 123 :: (separated texts ++ [125]) ++ rest =
      123 :: (separated texts ++ 125 :: rest) := by simp
  rw [htext, value, skip_cons rfl]
  simp only [if_neg (show (123 : UInt8) ≠ 34 by decide), if_neg (show (123 : UInt8) ≠ 91 by decide),
    ↓reduceIte]
  cases h with
  | nil =>
    have hempty : separated [] ++ 125 :: rest = 125 :: rest := rfl
    rw [hempty, expect_eq 125 rest rfl]
  | @cons w next ws nexts hw htail =>
    have hfuel' : (separated (next :: nexts)).length < fuel := by
      simp only [List.length_cons, List.length_append, List.length_nil] at hfuel
      omega
    have hfirst : expect 125 (separated (next :: nexts) ++ 125 :: rest) = none := by
      obtain ⟨name, body, rfl, -⟩ := hw
      cases nexts with
      | nil =>
        rw [separated_singleton]
        exact expect_ne _ rfl (by decide)
      | cons other nexts =>
        rw [separated_cons _ (List.cons_ne_nil _ _)]
        exact expect_ne _ rfl (by decide)
    rw [hfirst, members_separated hw htail fuel rest hfuel']
    rfl

end Lists

theorem Reads.parse {v : Value} {text : List UInt8} (h : Reads v text) : parse text = some v := by
  have hread := h text.length [] le_rfl ends_nil
  rw [List.append_nil] at hread
  rw [Json.parse, hread]
  rfl

end Json
