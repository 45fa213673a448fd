import Mathlib.Data.List.TakeWhile
import Mathlib.Tactic

/-! Fields of a list cut at separators, either all of them or only the first few with the
remainder of the list kept whole. -/
namespace Tokens

variable {α : Type*} (isSep : α → Bool)

def skip (xs : List α) : List α := xs.dropWhile isSep

def word (xs : List α) : List α := xs.takeWhile (fun x => !isSep x)

/-- What follows the leading run of elements that are not separators. -/
def afterWord (xs : List α) : List α := xs.dropWhile (fun x => !isSep x)

/-- At most `fuel` rounds of skipping separators and cutting off one field. -/
def fieldsFrom : ℕ → List α → List (List α)
  | 0, _ => []
  | fuel + 1, xs =>
      let rest := skip isSep xs
      if (word isSep rest).isEmpty then fieldsFrom fuel (afterWord isSep rest)
      else word isSep rest :: fieldsFrom fuel (afterWord isSep rest)

/-- All fields; a round consumes at least one element of a nonempty list. -/
def fields (xs : List α) : List (List α) := fieldsFrom isSep xs.length xs

/-- The last field of a bounded split: everything that is left after the separators. -/
def remainder (xs : List α) : List (List α) :=
  if (skip isSep xs).isEmpty then [] else [skip isSep xs]

/-- At most `limit` fields, the last one taking the rest of the list. -/
def fieldsN : ℕ → List α → List (List α)
  | 0, _ => []
  | 1, xs => remainder isSep xs
  | limit + 2, xs =>
      let rest := skip isSep xs
      if (word isSep rest).isEmpty then remainder isSep (afterWord isSep rest)
      else word isSep rest :: fieldsN (limit + 1) (afterWord isSep rest)

/-- The rounds of `fieldsFrom`, each field with the position it starts at; `pos` is the position
of the head of the list. -/
def locatedFrom : ℕ → ℕ → List α → List (ℕ × List α)
  | 0, _, _ => []
  | fuel + 1, pos, xs =>
      let rest := skip isSep xs
      let start := pos + (xs.length - rest.length)
      if (word isSep rest).isEmpty then locatedFrom fuel start (afterWord isSep rest)
      else (start, word isSep rest) ::
        locatedFrom fuel (start + (word isSep rest).length) (afterWord isSep rest)

def located (xs : List α) : List (ℕ × List α) := locatedFrom isSep xs.length 0 xs

/-- A field: nonempty and free of separators. -/
structure IsWord (w : List α) : Prop where
  ne_nil : w ≠ []
  noSep : ∀ x ∈ w, isSep x = false

variable {isSep}

theorem IsWord.head_noSep {x : α} {w : List α} (h : IsWord isSep (x :: w)) : isSep x = false :=
  h.noSep x (by simp)

theorem IsWord.isEmpty_eq_false {w : List α} (h : IsWord isSep w) : w.isEmpty = false := by
  cases w with
  | nil => exact absurd rfl h.ne_nil
  | cons x w => rfl

@[simp] theorem skip_nil : skip isSep [] = [] := rfl

theorem skip_cons_sep {s : α} (hs : isSep s = true) (xs : List α) :
    skip isSep (s :: xs) = skip isSep xs := by
  simp [skip, hs]

theorem skip_append_of_isWord {w : List α} (hw : IsWord isSep w) (xs : List α) :
    skip isSep (w ++ xs) = w ++ xs := by
  cases w with
  | nil => exact absurd rfl hw.ne_nil
  | cons x w => simp [skip, hw.head_noSep]

theorem skip_of_isWord {w : List α} (hw : IsWord isSep w) : skip isSep w = w := by
  simpa using skip_append_of_isWord hw []

theorem skip_eq_self {xs : List α} (h : ∀ x, xs.head? = some x → isSep x = false) :
    skip isSep xs = xs := by
  cases xs with
  | nil => rfl
  | cons x xs => simp [skip, h x rfl]

theorem skip_length_le (xs : List α) : (skip isSep xs).length ≤ xs.length :=
  (List.dropWhile_sublist _).length_le

theorem skip_head_noSep {xs : List α} {x : α} (h : (skip isSep xs).head? = some x) :
    isSep x = false := by
  induction xs with
  | nil => simp at h
  | cons y xs ih =>
    by_cases hy : isSep y = true
    · rw [skip_cons_sep hy] at h
      exact ih h
    · simp only [Bool.not_eq_true] at hy
      simp only [skip, hy, Bool.false_eq_true, not_false_eq_true, List.dropWhile_cons_of_neg,
        List.head?_cons, Option.some.injEq] at h
      exact h ▸ hy

@[simp] theorem skip_skip (xs : List α) : skip isSep (skip isSep xs) = skip isSep xs :=
  skip_eq_self fun _ h => skip_head_noSep h

theorem word_append_sep {w : List α} (hw : IsWord isSep w) {s : α} (hs : isSep s = true)
    (xs : List α) : word isSep (w ++ s :: xs) = w := by
  have h : ∀ x ∈ w, (!isSep x) = true := fun x hx => by simp [hw.noSep x hx]
  simp [word, List.takeWhile_append_of_pos h, hs]

theorem afterWord_append_sep {w : List α} (hw : IsWord isSep w) {s : α} (hs : isSep s = true)
    (xs : List α) : afterWord isSep (w ++ s :: xs) = s :: xs := by
  have h : ∀ x ∈ w, (!isSep x) = true := fun x hx => by simp [hw.noSep x hx]
  simp [afterWord, List.dropWhile_append_of_pos h, hs]

theorem word_of_isWord {w : List α} (hw : IsWord isSep w) : word isSep w = w := by
  have h : ∀ x ∈ w, (!isSep x) = true := fun x hx => by simp [hw.noSep x hx]
  exact List.takeWhile_eq_self_iff.mpr h

theorem afterWord_of_isWord {w : List α} (hw : IsWord isSep w) : afterWord isSep w = [] := by
  have h : ∀ x ∈ w, (!isSep x) = true := fun x hx => by simp [hw.noSep x hx]
  exact List.dropWhile_eq_nil_iff.mpr h

theorem afterWord_length_lt {x : α} {xs : List α} (hx : isSep x = false) :
    (afterWord isSep (x :: xs)).length < (x :: xs).length := by
  simp only [afterWord, hx, Bool.not_false, List.dropWhile_cons_of_pos, List.length_cons]
  exact Nat.lt_succ_of_le (List.dropWhile_sublist _).length_le

@[simp] theorem fieldsFrom_nil (fuel : ℕ) : fieldsFrom isSep fuel [] = [] := by
  induction fuel with
  | zero => rfl
  | succ fuel ih => simp [fieldsFrom, word, afterWord, ih]

/-- Any amount of fuel that covers the list gives the same fields. -/
theorem fieldsFrom_eq (m n : ℕ) (xs : List α) (hm : xs.length ≤ m) (hn : xs.length ≤ n) :
    fieldsFrom isSep m xs = fieldsFrom isSep n xs := by
  induction m generalizing n xs with
  | zero =>
    have hx : xs = [] := List.eq_nil_of_length_eq_zero (by omega)
    simp [hx]
  | succ m ih =>
    cases n with
    | zero =>
      have hx : xs = [] := List.eq_nil_of_length_eq_zero (by omega)
      simp [hx]
    | succ n =>
      have hskip : (skip isSep xs).length ≤ xs.length := skip_length_le xs
      cases hr : skip isSep xs with
      | nil => simp [fieldsFrom, hr, word, afterWord]
      | cons y ys =>
        have hhead : (skip isSep xs).head? = some y := by simp [hr]
        have hy : isSep y = false := skip_head_noSep hhead
        have hlt : (afterWord isSep (y :: ys)).length < (y :: ys).length := afterWord_length_lt hy
        rw [hr] at hskip
        simp only [fieldsFrom, hr]
        rw [ih n _ (by omega) (by omega)]

@[simp] theorem fields_nil : fields isSep [] = [] := rfl

theorem fields_cons_sep {s : α} (hs : isSep s = true) (xs : List α) :
    fields isSep (s :: xs) = fields isSep xs := by
  cases xs with
  | nil => simp [fields, fieldsFrom, skip_cons_sep hs, word]
  | cons x xs =>
    have h : fieldsFrom isSep (x :: xs).length (x :: xs) =
        fieldsFrom isSep ((x :: xs).length + 1) (x :: xs) := fieldsFrom_eq _ _ _ le_rfl (by simp)
    rw [fields, fields, h]
    simp only [List.length_cons, fieldsFrom, skip_cons_sep hs]

theorem fields_append_sep {w : List α} (hw : IsWord isSep w) {s : α} (hs : isSep s = true)
    (xs : List α) : fields isSep (w ++ s :: xs) = w :: fields isSep xs := by
  have hlen : (w ++ s :: xs).length = (w.length + xs.length) + 1 := by simp; omega
  rw [fields, hlen]
  simp only [fieldsFrom, skip_append_of_isWord hw, word_append_sep hw hs,
    afterWord_append_sep hw hs, hw.isEmpty_eq_false]
  simp only [Bool.false_eq_true, ↓reduceIte, List.cons.injEq, true_and]
  have hpos : 0 < w.length := List.length_pos_iff.mpr hw.ne_nil
  rw [fieldsFrom_eq _ (s :: xs).length _ (by simp; omega) le_rfl]
  exact fields_cons_sep hs xs

theorem fields_of_isWord {w : List α} (hw : IsWord isSep w) : fields isSep w = [w] := by
  obtain ⟨n, hn⟩ : ∃ n, w.length = n + 1 :=
    ⟨w.length - 1, by have := List.length_pos_iff.mpr hw.ne_nil; omega⟩
  rw [fields, hn]
  simp [fieldsFrom, skip_of_isWord hw, word_of_isWord hw, afterWord_of_isWord hw, hw.ne_nil]

theorem fields_eq_nil_iff {xs : List α} : fields isSep xs = [] ↔ ∀ x ∈ xs, isSep x = true := by
  induction xs with
  | nil => simp
  | cons x xs ih =>
    by_cases hx : isSep x = true
    · rw [fields_cons_sep hx, ih]
      simp [hx]
    · simp [fields, fieldsFrom, skip, word, hx]

theorem fields_padded {pre w post : List α} (hpre : ∀ x ∈ pre, isSep x = true)
    (hw : IsWord isSep w) (hpost : ∀ x ∈ post, isSep x = true) :
    fields isSep (pre ++ (w ++ post)) = [w] := by
  induction pre with
  | nil =>
    cases post with
    | nil => simpa using fields_of_isWord hw
    | cons s post =>
      obtain ⟨hs, hpost⟩ := List.forall_mem_cons.mp hpost
      rw [List.nil_append, fields_append_sep hw hs, fields_eq_nil_iff.mpr hpost]
  | cons s pre ih =>
    obtain ⟨hs, hpre⟩ := List.forall_mem_cons.mp hpre
    rw [List.cons_append, fields_cons_sep hs, ih hpre]

/-- A list has a single field exactly if it is this field with separators around it. -/
theorem fields_eq_singleton_iff {xs w : List α} (hw : IsWord isSep w) :
    fields isSep xs = [w] ↔ ∃ pre post, (∀ x ∈ pre, isSep x = true) ∧
      (∀ x ∈ post, isSep x = true) ∧ xs = pre ++ (w ++ post) := by
  constructor
  · intro h
    induction xs with
    | nil => simp at h
    | cons x xs ih =>
      by_cases hx : isSep x = true
      · rw [fields_cons_sep hx] at h
        obtain ⟨pre, post, hpre, hpost, rfl⟩ := ih h
        exact ⟨x :: pre, post, List.forall_mem_cons.mpr ⟨hx, hpre⟩, hpost, rfl⟩
      -- the list begins with a field, which has to be the only one
      have hwhole : word isSep (x :: xs) ++ afterWord isSep (x :: xs) = x :: xs :=
        List.takeWhile_append_dropWhile
      have hword : IsWord isSep (word isSep (x :: xs)) := by
        refine ⟨by simp [word, hx], fun y hy => ?_⟩
        simpa using List.mem_takeWhile_imp hy
      have hafter : word isSep (x :: xs) = w ∧ ∀ y ∈ afterWord isSep (x :: xs), isSep y = true := by
        cases hrest : afterWord isSep (x :: xs) with
        | nil =>
          rw [hrest, List.append_nil] at hwhole
          rw [← hwhole, fields_of_isWord hword, List.cons.injEq] at h
          exact ⟨h.1, by simp⟩
        | cons s rest =>
          have hs : isSep s = true := by
            simpa using @skip_head_noSep α (fun x => !isSep x) (x :: xs) s (congrArg List.head? hrest)
          rw [← hwhole, hrest, fields_append_sep hword hs, List.cons.injEq] at h
          exact ⟨h.1, List.forall_mem_cons.mpr ⟨hs, fields_eq_nil_iff.mp h.2⟩⟩
      refine ⟨[], afterWord isSep (x :: xs), by simp, hafter.2, ?_⟩
      rw [List.nil_append, ← hafter.1, hwhole]
  · rintro ⟨pre, post, hpre, hpost, rfl⟩
    exact fields_padded hpre hw hpost

@[simp] theorem remainder_nil : remainder isSep [] = [] := rfl

theorem remainder_cons_sep {s : α} (hs : isSep s = true) (xs : List α) :
    remainder isSep (s :: xs) = remainder isSep xs := by
  simp [remainder, skip_cons_sep hs]

theorem fieldsN_one (xs : List α) : fieldsN isSep 1 xs = remainder isSep xs := rfl

theorem fieldsN_cons_sep {s : α} (hs : isSep s = true) (n : ℕ) (xs : List α) :
    fieldsN isSep (n + 1) (s :: xs) = fieldsN isSep (n + 1) xs := by
  cases n with
  | zero => exact remainder_cons_sep hs xs
  | succ n => simp only [fieldsN, skip_cons_sep hs]

/-- While the limit is not reached, a field and its separator are split off in front. -/
theorem fieldsN_append_sep {w : List α} (hw : IsWord isSep w) {s : α} (hs : isSep s = true)
    (n : ℕ) (xs : List α) :
    fieldsN isSep (n + 2) (w ++ s :: xs) = w :: fieldsN isSep (n + 1) xs := by
  simp only [fieldsN, skip_append_of_isWord hw, word_append_sep hw hs,
    afterWord_append_sep hw hs, hw.isEmpty_eq_false]
  simp only [Bool.false_eq_true, ↓reduceIte, List.cons.injEq, true_and]
  exact fieldsN_cons_sep hs n xs

@[simp] theorem locatedFrom_nil (fuel pos : ℕ) : locatedFrom isSep fuel pos [] = [] := by
  induction fuel generalizing pos with
  | zero => rfl
  | succ fuel ih => simp [locatedFrom, word, afterWord, ih]

theorem locatedFrom_map_snd (fuel pos : ℕ) (xs : List α) :
    (locatedFrom isSep fuel pos xs).map Prod.snd = fieldsFrom isSep fuel xs := by
  induction fuel generalizing pos xs with
  | zero => rfl
  | succ fuel ih =>
    simp only [locatedFrom, fieldsFrom]
    split_ifs with hword
    · exact ih _ _
    · rw [List.map_cons, ih]

theorem located_map_snd (xs : List α) : (located isSep xs).map Prod.snd = fields isSep xs :=
  locatedFrom_map_snd _ _ _

theorem drop_skip (xs : List α) : xs.drop (xs.length - (skip isSep xs).length) = skip isSep xs :=
  (List.suffix_iff_eq_drop.mp (List.dropWhile_suffix _)).symm

theorem drop_word (xs : List α) : xs.drop (word isSep xs).length = afterWord isSep xs := by
  have hwhole : word isSep xs ++ afterWord isSep xs = xs := List.takeWhile_append_dropWhile
  calc xs.drop (word isSep xs).length
      = (word isSep xs ++ afterWord isSep xs).drop (word isSep xs).length := by rw [hwhole]
    _ = afterWord isSep xs := List.drop_left

theorem word_isEmpty_of_head {x : α} {xs : List α} (hx : isSep x = false) :
    (word isSep (x :: xs)).isEmpty = false := by
  simp [word, hx]

theorem drop_start {whole xs : List α} {pos : ℕ} (hpos : whole.drop pos = xs) :
    whole.drop (pos + (xs.length - (skip isSep xs).length)) = skip isSep xs := by
  rw [← List.drop_drop, hpos, drop_skip]

theorem drop_next {whole xs : List α} {pos : ℕ} (hpos : whole.drop pos = xs) :
    whole.drop (pos + (xs.length - (skip isSep xs).length) + (word isSep (skip isSep xs)).length) =
      afterWord isSep (skip isSep xs) := by
  rw [← List.drop_drop, drop_start hpos, drop_word]

/-- Every located field is the run of proper elements that begins at its position. -/
theorem word_of_mem_locatedFrom {whole : List α} {fuel pos : ℕ} {xs : List α}
    (hpos : whole.drop pos = xs) {f : ℕ × List α} (hf : f ∈ locatedFrom isSep fuel pos xs) :
    word isSep (whole.drop f.1) = f.2 := by
  induction fuel generalizing pos xs with
  | zero => simp [locatedFrom] at hf
  | succ fuel ih =>
    have hnext := @drop_next α isSep whole xs pos hpos
    simp only [locatedFrom] at hf
    split_ifs at hf with hword
    · apply ih _ hf
      rw [List.isEmpty_iff.mp hword, List.length_nil, Nat.add_zero] at hnext
      exact hnext
    · rcases List.mem_cons.mp hf with rfl | hf
      · rw [drop_start hpos]
      · exact ih hnext hf

/-- A bounded split takes the fields of the full one in front of its last field, which is the list
from the position on where the field of the full split starts. -/
theorem fieldsN_eq_locatedFrom {whole : List α} (n : ℕ) {fuel pos : ℕ} {xs : List α}
    (hpos : whole.drop pos = xs) (hfuel : xs.length ≤ fuel) :
    fieldsN isSep (n + 1) xs = (fieldsFrom isSep fuel xs).take n ++
      ((locatedFrom isSep fuel pos xs)[n]?.map fun f => whole.drop f.1).toList := by
  induction n generalizing fuel pos xs with
  | zero =>
    cases fuel with
    | zero =>
      have hxs : xs = [] := List.eq_nil_of_length_eq_zero (by omega)
      simp [hxs, fieldsN_one, locatedFrom]
    | succ fuel =>
      have hstart := @drop_start α isSep whole xs pos hpos
      rw [fieldsN_one, remainder]
      cases hskip : skip isSep xs with
      | nil => simp [locatedFrom, hskip, word, afterWord]
      | cons y ys =>
        have hy : isSep y = false := skip_head_noSep (congrArg List.head? hskip)
        rw [hskip, List.length_cons] at hstart
        simp [locatedFrom, hskip, word_isEmpty_of_head hy, hstart]
  | succ n ih =>
    cases fuel with
    | zero =>
      have hxs : xs = [] := List.eq_nil_of_length_eq_zero (by omega)
      simp [hxs, fieldsN, locatedFrom, word, afterWord]
    | succ fuel =>
      have hnext := @drop_next α isSep whole xs pos hpos
      cases hskip : skip isSep xs with
      | nil => simp [fieldsN, fieldsFrom, locatedFrom, hskip, word, afterWord]
      | cons y ys =>
        have hy : isSep y = false := skip_head_noSep (congrArg List.head? hskip)
        have hlen : (afterWord isSep (y :: ys)).length ≤ fuel := by
          have hlt : (afterWord isSep (y :: ys)).length < (y :: ys).length :=
            afterWord_length_lt hy
          have hle : (skip isSep xs).length ≤ xs.length := skip_length_le xs
          rw [hskip] at hle
          omega
        rw [hskip] at hnext
        simp only [fieldsN, fieldsFrom, locatedFrom, hskip, word_isEmpty_of_head hy,
          Bool.false_eq_true, ↓reduceIte, List.take_succ_cons, List.getElem?_cons_succ,
          List.cons_append]
        rw [ih hnext hlen]

theorem fieldsN_eq_located (n : ℕ) (xs : List α) :
    fieldsN isSep (n + 1) xs = (fields isSep xs).take n ++
      ((located isSep xs)[n]?.map fun f => xs.drop f.1).toList :=
  fieldsN_eq_locatedFrom n rfl le_rfl

theorem mem_of_mem_skip {xs : List α} {x : α} (h : x ∈ skip isSep xs) : x ∈ xs :=
  (List.dropWhile_sublist _).subset h

theorem mem_of_mem_word {xs : List α} {x : α} (h : x ∈ word isSep xs) : x ∈ xs :=
  (List.takeWhile_sublist _).subset h

theorem mem_of_mem_afterWord {xs : List α} {x : α} (h : x ∈ afterWord isSep xs) : x ∈ xs :=
  (List.dropWhile_sublist _).subset h

theorem isWord_of_mem_fields {xs f : List α} (hf : f ∈ fields isSep xs) :
    IsWord isSep f ∧ ∀ x ∈ f, x ∈ xs := by
  have hfrom (fuel : ℕ) : ∀ {ys : List α}, f ∈ fieldsFrom isSep fuel ys →
      IsWord isSep f ∧ ∀ x ∈ f, x ∈ ys := by
    induction fuel with
    | zero => simp [fieldsFrom]
    | succ fuel ih =>
      intro ys hys
      have hlater (h : f ∈ fieldsFrom isSep fuel (afterWord isSep (skip isSep ys))) :
          IsWord isSep f ∧ ∀ x ∈ f, x ∈ ys :=
        ⟨(ih h).1, fun x hx => mem_of_mem_skip (mem_of_mem_afterWord ((ih h).2 x hx))⟩
      simp only [fieldsFrom] at hys
      split_ifs at hys with hempty
      · exact hlater hys
      · rcases List.mem_cons.mp hys with rfl | hys
        · refine ⟨⟨by simpa using hempty, fun x hx => ?_⟩,
            fun x hx => mem_of_mem_skip (mem_of_mem_word hx)⟩
          simpa using List.mem_takeWhile_imp hx
        · exact hlater hys
  exact hfrom _ hf

theorem mem_of_mem_fieldsN {n : ℕ} {xs f : List α} (hf : f ∈ fieldsN isSep n xs) {x : α}
    (hx : x ∈ f) : x ∈ xs := by
  have hrem {ys f : List α} (hf : f ∈ remainder isSep ys) (hx : x ∈ f) : x ∈ ys := by
    unfold remainder at hf
    split_ifs at hf
    · simp at hf
    · rw [List.mem_singleton] at hf
      exact mem_of_mem_skip (hf ▸ hx)
  induction n generalizing xs with
  | zero => simp [fieldsN] at hf
  | succ n ih =>
    cases n with
    | zero => exact hrem hf hx
    | succ n =>
      simp only [fieldsN] at hf
      split_ifs at hf
      · exact mem_of_mem_skip (mem_of_mem_afterWord (hrem hf hx))
      · rcases List.mem_cons.mp hf with rfl | hf
        · exact mem_of_mem_skip (mem_of_mem_word hx)
        · exact mem_of_mem_skip (mem_of_mem_afterWord (ih hf))

end Tokens
