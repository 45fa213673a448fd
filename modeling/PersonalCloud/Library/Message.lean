import PersonalCloud.Library.Decimal

/-! Messages on a stream of bytes: a first line, fields, a blank line, and a body whose length one of
the fields gives. -/

structure Message where
  first : List UInt8
  fields : List (List UInt8 × List UInt8)
  body : List UInt8
  deriving DecidableEq

namespace Message

def lineEnd : List UInt8 := [13, 10]

def fieldLine (f : List UInt8 × List UInt8) : List UInt8 := f.1 ++ 58 :: 32 :: f.2

def head (m : Message) : List UInt8 :=
  (m.first :: m.fields.map fieldLine ++ [[]]).flatMap fun l => l ++ lineEnd

def text (m : Message) : List UInt8 := m.head ++ m.body

def untilFeed : List UInt8 → Option (List UInt8 × List UInt8)
  | [] => none
  | c :: rest => if c = 10 then some ([], rest) else (untilFeed rest).map fun r => (c :: r.1, r.2)

/-- A line ends in a line feed, and a carriage return in front of it belongs to the end. -/
def readLine (input : List UInt8) : Option (List UInt8 × List UInt8) :=
  (untilFeed input).map fun r => (if r.1.getLast? = some 13 then r.1.dropLast else r.1, r.2)

def isBlank (c : UInt8) : Bool := c == 32 || c == 9

def trimmed (value : List UInt8) : List UInt8 :=
  ((value.dropWhile isBlank).reverse.dropWhile isBlank).reverse

/-- A name without blanks, a colon, and a value between blanks. -/
def readField (line : List UInt8) : Option (List UInt8 × List UInt8) :=
  let name := line.takeWhile (· ≠ 58)
  match line.dropWhile (· ≠ 58) with
  | [] => none
  | _ :: value => if name.isEmpty ∨ name.any isBlank then none else some (name, trimmed value)

/-- The fields up to the blank line; each line takes a byte at least. -/
def readFields : ℕ → List UInt8 → Option (List (List UInt8 × List UInt8) × List UInt8)
  | 0, _ => none
  | fuel + 1, input =>
      match readLine input with
      | none => none
      | some ([], rest) => some ([], rest)
      | some (c :: cs, rest) =>
          (readField (c :: cs)).bind fun f => (readFields fuel rest).map fun r => (f :: r.1, r.2)

def lower (c : UInt8) : UInt8 := if 65 ≤ c ∧ c ≤ 90 then c + 32 else c

/-- The values of a field, whose name is given in small letters. -/
def values (name : List UInt8) (fields : List (List UInt8 × List UInt8)) : List (List UInt8) :=
  (fields.filter fun f => f.1.map lower = name).map Prod.snd

def lengthField : List UInt8 :=
  [99, 111, 110, 116, 101, 110, 116, 45, 108, 101, 110, 103, 116, 104]

/-- One message and what follows it. A message that a first line of its kind makes bodiless ends
with the blank line, one without a length with the stream. -/
def read (bodiless : List UInt8 → Bool) (input : List UInt8) : Option (Message × List UInt8) :=
  match readLine input with
  | none => none
  | some (first, rest) =>
      match readFields rest.length rest with
      | none => none
      | some (fields, rest) =>
          if bodiless first then some (⟨first, fields, []⟩, rest)
          else
            match values lengthField fields with
            | [] => some (⟨first, fields, rest⟩, [])
            | [n] =>
                if n.isEmpty ∨ !n.all Decimal.isDigit ∨ rest.length < Decimal.value n then none
                else some (⟨first, fields, rest.take (Decimal.value n)⟩, rest.drop (Decimal.value n))
            | _ => none

theorem readLine_of_read {bodiless : List UInt8 → Bool} {input : List UInt8}
    {r : Message × List UInt8} (h : read bodiless input = some r) :
    ∃ more, readLine input = some (r.1.first, more) := by
  unfold read at h
  split at h
  · contradiction
  · next first rest hline =>
    refine ⟨rest, ?_⟩
    rw [hline]
    split at h
    · contradiction
    · split_ifs at h
      · rw [← Option.some.inj h]
      · split at h
        · rw [← Option.some.inj h]
        · split_ifs at h
          rw [← Option.some.inj h]
        · contradiction

theorem readLine_first {c : UInt8} (hfeed : c ≠ 10) (hreturn : c ≠ 13)
    {input line rest : List UInt8} (h : readLine (c :: input) = some (line, rest)) :
    ∃ cs, line = c :: cs := by
  rw [readLine, untilFeed, if_neg hfeed] at h
  cases huntil : untilFeed input with
  | none => simp [huntil] at h
  | some r =>
    obtain ⟨cs, after⟩ := r
    rw [huntil] at h
    simp only [Option.map_some, Option.some.injEq, Prod.mk.injEq] at h
    rw [← h.1]
    cases cs with
    | nil => exact ⟨[], by simp [hreturn]⟩
    | cons d ds =>
      split_ifs
      · exact ⟨_, List.dropLast_cons_of_ne_nil (List.cons_ne_nil d ds)⟩
      · exact ⟨_, rfl⟩

def IsLine (line : List UInt8) : Prop := ∀ c ∈ line, c ≠ 10 ∧ c ≠ 13

instance : DecidablePred IsLine := fun line =>
  decidable_of_iff (line.all fun c => c ≠ 10 ∧ c ≠ 13) (by simp [IsLine])

/-- A value is not changed when blanks around it are taken away. -/
@[mk_iff isValue_iff]
structure IsValue (value : List UInt8) : Prop where
  line : IsLine value
  head : ∀ c ∈ value.head?, isBlank c = false
  last : ∀ c ∈ value.getLast?, isBlank c = false

instance : DecidablePred IsValue := fun value =>
  decidable_of_iff (IsLine value ∧ value.head?.all (!isBlank ·) ∧
    value.getLast?.all (!isBlank ·)) (by simp [isValue_iff, Option.all_eq_true])

/-- A name ends where the colon stands. -/
@[mk_iff isName_iff]
structure IsName (name : List UInt8) : Prop where
  ne : name ≠ []
  line : IsLine name
  plain : ∀ c ∈ name, c ≠ 58 ∧ isBlank c = false

instance : DecidablePred IsName := fun name =>
  decidable_of_iff (name ≠ [] ∧ IsLine name ∧ name.all fun c => c ≠ 58 ∧ isBlank c = false)
    (by simp [isName_iff])

structure IsField (f : List UInt8 × List UInt8) : Prop where
  name : IsName f.1
  value : IsValue f.2

instance : DecidablePred IsField := fun f =>
  decidable_of_iff (IsName f.1 ∧ IsValue f.2) ⟨fun h => ⟨h.1, h.2⟩, fun h => ⟨h.1, h.2⟩⟩

/-- The reader finds the parts of the message. -/
structure WellFormed (m : Message) : Prop where
  first : IsLine m.first
  fields : ∀ f ∈ m.fields, IsField f
  length : values lengthField m.fields = [Decimal.text m.body.length]

theorem untilFeed_append {line : List UInt8} (h : IsLine line) (rest : List UInt8) :
    untilFeed (line ++ lineEnd ++ rest) = some (line ++ [13], rest) := by
  induction line with
  | nil => rfl
  | cons c cs ih =>
    have hc : c ≠ 10 := (h c List.mem_cons_self).1
    rw [List.cons_append, List.cons_append, untilFeed, if_neg hc,
      ih fun d hd => h d (List.mem_cons_of_mem c hd)]
    rfl

theorem readLine_append {line : List UInt8} (h : IsLine line) (rest : List UInt8) :
    readLine (line ++ lineEnd ++ rest) = some (line, rest) := by
  rw [readLine, untilFeed_append h]
  simp

theorem trimmed_blank {value : List UInt8} (h : IsValue value) : trimmed (32 :: value) = value := by
  have hdrop (l : List UInt8) (h : ∀ c ∈ l.head?, isBlank c = false) : l.dropWhile isBlank = l := by
    cases l with
    | nil => rfl
    | cons c cs => simp [h c rfl]
  have hfront : (32 :: value).dropWhile isBlank = value := by
    rw [List.dropWhile_cons_of_pos rfl, hdrop value h.head]
  have hback : value.reverse.dropWhile isBlank = value.reverse :=
    hdrop _ (by
    rw [List.head?_reverse]
    exact h.last)
  rw [trimmed, hfront, hback, List.reverse_reverse]

theorem readField_fieldLine {f : List UInt8 × List UInt8} (h : IsField f) :
    readField (fieldLine f) = some f := by
  have hall : ∀ c ∈ f.1, decide (c ≠ 58) = true := fun c hc => decide_eq_true (h.name.plain c hc).1
  have htake : (fieldLine f).takeWhile (· ≠ 58) = f.1 := by
    rw [fieldLine, List.takeWhile_append_of_pos hall]
    simp
  have hdrop : (fieldLine f).dropWhile (· ≠ 58) = 58 :: 32 :: f.2 := by
    rw [fieldLine, List.dropWhile_append_of_pos hall]
    simp
  have hname : ¬ (f.1.isEmpty = true ∨ f.1.any isBlank = true) := by
    rintro (hempty | hblank)
    · exact h.name.ne (List.isEmpty_iff.mp hempty)
    · obtain ⟨c, hc, hblank⟩ := List.any_eq_true.mp hblank
      rw [(h.name.plain c hc).2] at hblank
      contradiction
  rw [readField]
  simp only [htake, hdrop, if_neg hname, trimmed_blank h.value]

theorem isLine_fieldLine {f : List UInt8 × List UInt8} (h : IsField f) : IsLine (fieldLine f) := by
  intro c hc
  simp only [fieldLine, List.mem_append, List.mem_cons] at hc
  rcases hc with hc | rfl | rfl | hc
  · exact h.name.line c hc
  · decide
  · decide
  · exact h.value.line c hc

theorem readFields_append {fields : List (List UInt8 × List UInt8)} (h : ∀ f ∈ fields, IsField f)
    (fuel : ℕ) (hfuel : fields.length < fuel) (rest : List UInt8) :
    readFields fuel ((fields.map fieldLine ++ [[]]).flatMap (fun l => l ++ lineEnd) ++ rest) =
      some (fields, rest) := by
  induction fields generalizing fuel with
  | nil =>
    obtain ⟨fuel, rfl⟩ : ∃ n, fuel = n + 1 := ⟨fuel - 1, by simp at hfuel; omega⟩
    have htext : (([] : List (List UInt8 × List UInt8)).map fieldLine ++ [[]]).flatMap
        (fun l => l ++ lineEnd) ++ rest = [] ++ lineEnd ++ rest := by simp
    rw [htext, readFields, readLine_append (by intro c hc; contradiction)]
  | cons f fs ih =>
    obtain ⟨fuel, rfl⟩ : ∃ n, fuel = n + 1 := ⟨fuel - 1, by simp at hfuel; omega⟩
    have hf := h f List.mem_cons_self
    have htext : ((f :: fs).map fieldLine ++ [[]]).flatMap (fun l => l ++ lineEnd) ++ rest =
        fieldLine f ++ lineEnd ++
          ((fs.map fieldLine ++ [[]]).flatMap (fun l => l ++ lineEnd) ++ rest) := by simp
    rw [htext, readFields, readLine_append (isLine_fieldLine hf)]
    have hread := readField_fieldLine hf
    cases hline : fieldLine f with
    | nil => simp [fieldLine] at hline
    | cons c cs =>
      rw [hline] at hread
      have htail := ih (fun g hg => h g (List.mem_cons_of_mem f hg)) fuel
        (by simp only [List.length_cons] at hfuel; omega)
      simp only [hread, Option.bind_some, htail]
      rfl

theorem length_le_flatMap_lineEnd (lines : List (List UInt8)) :
    lines.length ≤ (lines.flatMap fun l => l ++ lineEnd).length := by
  induction lines with
  | nil => simp
  | cons l ls ih =>
    have hend : lineEnd.length = 2 := rfl
    simp only [List.flatMap_cons, List.length_append, List.length_cons]
    omega

/-- A message is read off the stream up to its body, and its body with it unless its first line
makes it bodiless. -/
theorem read_text {m : Message} (h : m.WellFormed) (bodiless : List UInt8 → Bool)
    (rest : List UInt8) : read bodiless (m.text ++ rest) =
      some (if bodiless m.first then ({ m with body := [] }, m.body ++ rest) else (m, rest)) := by
  have htext : m.text ++ rest = m.first ++ lineEnd ++
      ((m.fields.map fieldLine ++ [[]]).flatMap (fun l => l ++ lineEnd) ++ (m.body ++ rest)) := by
    simp [text, head]
  have hfuel : m.fields.length < ((m.fields.map fieldLine ++ [[]]).flatMap (fun l => l ++ lineEnd) ++
      (m.body ++ rest)).length := by
    have hlines := length_le_flatMap_lineEnd (m.fields.map fieldLine ++ [[]])
    simp only [List.length_append, List.length_map, List.length_cons, List.length_nil] at hlines ⊢
    omega
  have hdigits : ¬ ((Decimal.text m.body.length).isEmpty = true ∨
      (!(Decimal.text m.body.length).all Decimal.isDigit) = true ∨
      (m.body ++ rest).length < m.body.length) := by
    simpa [Decimal.text_ne_nil] using Decimal.text_digits m.body.length
  rw [htext, read, readLine_append h.first]
  simp only [readFields_append h.fields _ hfuel]
  split_ifs with hbody
  · rfl
  · simp only [h.length, Decimal.value_text, if_neg hdigits]
    simp

end Message
