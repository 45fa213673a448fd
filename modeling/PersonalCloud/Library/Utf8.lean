import Mathlib.Tactic

/-! The UTF-8 decoder of browsers. Its result is again given in UTF-8, so text that is UTF-8 comes
out as it is, and what is not has become replacement characters. -/
namespace Utf8

def replacement : List UInt8 := [0xEF, 0xBF, 0xBD]

/-- How many bytes a character has that begins with the byte; none begins with those of length 0. -/
def size (c : UInt8) : ℕ :=
  if c < 0x80 then 1
  else if c < 0xC2 then 0
  else if c < 0xE0 then 2
  else if c < 0xF0 then 3
  else if c < 0xF5 then 4
  else 0

/-- The least byte that goes on with a character of which some bytes have been seen. -/
def lower (seen : List UInt8) : UInt8 :=
  if seen = [0xE0] then 0xA0 else if seen = [0xF0] then 0x90 else 0x80

def upper (seen : List UInt8) : UInt8 :=
  if seen = [0xED] then 0x9F else if seen = [0xF4] then 0x8F else 0xBF

/-- A byte between two characters: what comes out, and what has been seen of the next character. -/
def first (c : UInt8) : List UInt8 × List UInt8 :=
  if size c = 0 then (replacement, []) else if size c = 1 then ([c], []) else ([], [c])

/-- A byte behind what has been seen of a character. One that does not go on with the character ends
it, and is looked at again. -/
def step (seen : List UInt8) (c : UInt8) : List UInt8 × List UInt8 :=
  if seen = [] then first c
  else if lower seen ≤ c ∧ c ≤ upper seen then
    if seen.length + 1 = size (seen.headD 0) then (seen ++ [c], []) else ([], seen ++ [c])
  else (replacement ++ (first c).1, (first c).2)

/-- What is left of a character that is not gone on with. -/
def flush (seen : List UInt8) : List UInt8 := if seen = [] then [] else replacement

def decodeFrom : List UInt8 → List UInt8 → List UInt8
  | seen, [] => flush seen
  | seen, c :: cs => (step seen c).1 ++ decodeFrom (step seen c).2 cs

def decodeWithoutBom (s : List UInt8) : List UInt8 := decodeFrom [] s

/-- The byte order mark in front of a text is dropped. -/
def decode (s : List UInt8) : List UInt8 :=
  decodeWithoutBom (if [0xEF, 0xBB, 0xBF].isPrefixOf s then s.drop 3 else s)

/-- No byte of the rest is out of place. -/
def accepts : List UInt8 → List UInt8 → Bool
  | seen, [] => seen.isEmpty
  | seen, c :: cs =>
      (if seen = [] then decide (size c ≠ 0) else decide (lower seen ≤ c ∧ c ≤ upper seen)) &&
        accepts (step seen c).2 cs

/-- The bytes are the UTF-8 of some text. -/
def IsUtf8 (s : List UInt8) : Prop := accepts [] s = true

instance : DecidablePred IsUtf8 := fun s => inferInstanceAs (Decidable (accepts [] s = true))

theorem decodeFrom_of_accepts {seen s : List UInt8} (h : accepts seen s = true) :
    decodeFrom seen s = seen ++ s := by
  induction s generalizing seen with
  | nil =>
    obtain rfl : seen = [] := by simpa [accepts] using h
    rfl
  | cons c s ih =>
    rw [accepts, Bool.and_eq_true] at h
    obtain ⟨hc, hs⟩ := h
    rw [decodeFrom, ih hs]
    by_cases hseen : seen = []
    · subst hseen
      rw [if_pos rfl, decide_eq_true_eq] at hc
      rw [step, if_pos rfl, first, if_neg hc]
      split_ifs
      · rfl
      · rfl
    · rw [if_neg hseen, decide_eq_true_eq] at hc
      simp only [step, if_neg hseen, if_pos hc]
      split_ifs
      · simp
      · simp

theorem decodeWithoutBom_of_isUtf8 {s : List UInt8} (h : IsUtf8 s) : decodeWithoutBom s = s :=
  decodeFrom_of_accepts h

def IsAscii (w : List UInt8) : Prop := ∀ c ∈ w, c < 0x80

instance : DecidablePred IsAscii := fun w => List.decidableBAll _ w

theorem IsAscii.append {v w : List UInt8} (hv : IsAscii v) (hw : IsAscii w) : IsAscii (v ++ w) :=
  fun c hc => (List.mem_append.mp hc).elim (hv c) (hw c)

theorem first_ascii {c : UInt8} (hc : c < 0x80) : first c = ([c], []) := by
  simp [first, size, hc]

/-- An ASCII byte stands for itself, whatever it comes behind. -/
theorem step_ascii {c : UInt8} (hc : c < 0x80) (seen : List UInt8) :
    step seen c = (flush seen ++ [c], []) := by
  have hlower : 0x80 ≤ lower seen := by
    unfold lower
    split_ifs <;> decide
  have hout : ¬ (lower seen ≤ c ∧ c ≤ upper seen) := fun h =>
    UInt8.not_le.mpr hc (UInt8.le_trans hlower h.1)
  unfold step flush
  split_ifs
  · rw [first_ascii hc]
    rfl
  · rw [first_ascii hc]

theorem decodeFrom_ascii {w : List UInt8} (hw : IsAscii w) (hne : w ≠ [])
    (seen t : List UInt8) : decodeFrom seen (w ++ t) = flush seen ++ w ++ decodeWithoutBom t := by
  induction w generalizing seen with
  | nil => contradiction
  | cons c w ih =>
    rw [List.cons_append, decodeFrom, step_ascii (hw c List.mem_cons_self)]
    by_cases hnil : w = []
    · subst hnil
      simp [decodeWithoutBom]
    · rw [ih (fun d hd => hw d (List.mem_cons_of_mem c hd)) hnil]
      simp [flush]

/-- ASCII text in the middle keeps what is in front of it and what is behind it apart. -/
theorem decodeWithoutBom_append_ascii {w : List UInt8} (hw : IsAscii w) (hne : w ≠ [])
    (s t : List UInt8) :
    decodeWithoutBom (s ++ (w ++ t)) = decodeWithoutBom s ++ (w ++ decodeWithoutBom t) := by
  have hfrom (seen : List UInt8) :
      decodeFrom seen (s ++ (w ++ t)) = decodeFrom seen s ++ (w ++ decodeWithoutBom t) := by
    induction s generalizing seen with
    | nil => simp [decodeFrom_ascii hw hne, decodeFrom]
    | cons c s ih => simp [decodeFrom, ih]
  exact hfrom []

theorem decodeWithoutBom_ascii_append {w : List UInt8} (hw : IsAscii w) (t : List UInt8) :
    decodeWithoutBom (w ++ t) = w ++ decodeWithoutBom t := by
  by_cases hne : w = []
  · rw [hne]
    rfl
  · exact decodeWithoutBom_append_ascii hw hne [] t

theorem decodeWithoutBom_of_ascii {w : List UInt8} (hw : IsAscii w) :
    decodeWithoutBom w = w := by
  have h := decodeWithoutBom_ascii_append hw []
  rwa [List.append_nil, show decodeWithoutBom [] = [] from rfl, List.append_nil] at h

theorem decodeWithoutBom_intercalate {w : List UInt8} (hw : IsAscii w) (hne : w ≠ [])
    (texts : List (List UInt8)) : decodeWithoutBom (List.intercalate w texts) =
      List.intercalate w (texts.map decodeWithoutBom) := by
  induction texts with
  | nil => rfl
  | cons text texts ih =>
    by_cases hnil : texts = []
    · subst hnil
      simp
    · rw [List.intercalate_cons_of_ne_nil hnil, List.append_assoc,
        decodeWithoutBom_append_ascii hw hne, ih, List.map_cons,
        List.intercalate_cons_of_ne_nil (by simpa using hnil), List.append_assoc]

theorem decode_of_ascii_head {c : UInt8} (hc : c < 0x80) (s : List UInt8) :
    decode (c :: s) = decodeWithoutBom (c :: s) := by
  have hne : (0xEF == c) = false := by
    rw [beq_eq_false_iff_ne]
    rintro rfl
    exact absurd hc (by decide)
  simp [decode, List.isPrefixOf, hne]

theorem replacement_high {d : UInt8} (hd : d ∈ replacement) : 0x80 ≤ d := by
  obtain rfl | rfl | rfl : d = 0xEF ∨ d = 0xBF ∨ d = 0xBD := by simpa [replacement] using hd
  all_goals decide

/-- Nothing but bytes above ASCII is kept back. -/
theorem step_high {c : UInt8} (hc : 0x80 ≤ c) {seen : List UInt8} (hseen : ∀ d ∈ seen, 0x80 ≤ d) :
    (∀ d ∈ (step seen c).1, 0x80 ≤ d) ∧ ∀ d ∈ (step seen c).2, 0x80 ≤ d := by
  have hfirst : (∀ d ∈ (first c).1, 0x80 ≤ d) ∧ ∀ d ∈ (first c).2, 0x80 ≤ d := by
    unfold first
    split_ifs
    · exact ⟨fun d => replacement_high, by simp⟩
    · exact ⟨by simpa using hc, by simp⟩
    · exact ⟨by simp, by simpa using hc⟩
  have hmore : ∀ d ∈ seen ++ [c], 0x80 ≤ d := by
    intro d hd
    rcases List.mem_append.mp hd with hd | hd
    · exact hseen d hd
    · exact List.mem_singleton.mp hd ▸ hc
  unfold step
  split_ifs
  · exact hfirst
  · exact ⟨hmore, by simp⟩
  · exact ⟨by simp, hmore⟩
  · refine ⟨fun d hd => ?_, hfirst.2⟩
    rcases List.mem_append.mp hd with hd | hd
    · exact replacement_high hd
    · exact hfirst.1 d hd

theorem flatMap_of_high {f : UInt8 → List UInt8} (hhigh : ∀ c, 0x80 ≤ c → f c = [c])
    {s : List UInt8} (hs : ∀ c ∈ s, 0x80 ≤ c) : s.flatMap f = s := by
  induction s with
  | nil => rfl
  | cons c s ih =>
    rw [List.flatMap_cons, hhigh c (hs c List.mem_cons_self),
      ih fun d hd => hs d (List.mem_cons_of_mem c hd)]
    rfl

/-- A way to write text that only touches ASCII can be decoded before it is undone. -/
theorem decodeWithoutBom_flatMap {f : UInt8 → List UInt8} (hhigh : ∀ c, 0x80 ≤ c → f c = [c])
    (hlow : ∀ c, c < 0x80 → f c ≠ [] ∧ IsAscii (f c)) (s : List UInt8) :
    decodeWithoutBom (s.flatMap f) = (decodeWithoutBom s).flatMap f := by
  have hflush (seen : List UInt8) : (flush seen).flatMap f = flush seen := by
    unfold flush
    split_ifs
    · rfl
    · exact flatMap_of_high hhigh fun d => replacement_high
  have hfrom (seen : List UInt8) (hseen : ∀ d ∈ seen, 0x80 ≤ d) :
      decodeFrom seen (s.flatMap f) = (decodeFrom seen s).flatMap f := by
    induction s generalizing seen with
    | nil => exact (hflush seen).symm
    | cons c s ih =>
      rw [List.flatMap_cons]
      by_cases hc : c < 0x80
      · obtain ⟨hne, hw⟩ := hlow c hc
        rw [decodeFrom_ascii hw hne, decodeFrom, step_ascii hc, decodeWithoutBom,
          ih [] (by simp), List.flatMap_append, List.flatMap_append, hflush, List.flatMap_singleton]
      · have hhigh' := UInt8.not_lt.mp hc
        obtain ⟨hout, hnext⟩ := step_high hhigh' hseen
        rw [hhigh c hhigh', List.singleton_append, decodeFrom, decodeFrom, ih _ hnext,
          List.flatMap_append, flatMap_of_high hhigh hout]
  exact hfrom [] (by simp)

-- two bytes of a character, one that begins none, and one whose character is not gone on with
example : decode [0xC3, 0xA9, 0xFF, 0xE2, 0x82, 0x61] =
    [0xC3, 0xA9] ++ replacement ++ replacement ++ [0x61] := by decide

end Utf8
