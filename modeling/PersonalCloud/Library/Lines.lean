import Mathlib.Tactic

/-! Text as lines with a terminator behind each; a last line may lack it. -/
namespace Lines

variable {α : Type*} [DecidableEq α] (term : α)

/-- The lines of a text, the first of which began with `cur`. -/
def splitFrom : List α → List α → List (List α)
  | [], cur => if cur.isEmpty then [] else [cur]
  | c :: cs, cur => if c = term then cur :: splitFrom cs [] else splitFrom cs (cur ++ [c])

def split (text : List α) : List (List α) := splitFrom term text []

def join (lines : List (List α)) : List α := lines.flatMap fun l => l ++ [term]

variable {term}

theorem splitFrom_append {line : List α} (h : term ∉ line) (rest cur : List α) :
    splitFrom term (line ++ term :: rest) cur = (cur ++ line) :: splitFrom term rest [] := by
  induction line generalizing cur with
  | nil => simp [splitFrom]
  | cons c cs ih =>
    have hc : c ≠ term := by
      rintro rfl
      simp at h
    have hcs : term ∉ cs := fun hmem => h (List.mem_cons_of_mem _ hmem)
    rw [List.cons_append, splitFrom, if_neg hc, ih hcs]
    simp

/-- Whole lines in front of a text are split off. -/
theorem split_join_append {lines : List (List α)} (h : ∀ l ∈ lines, term ∉ l) (rest : List α) :
    split term (join term lines ++ rest) = lines ++ split term rest := by
  induction lines with
  | nil => rfl
  | cons l ls ih =>
    have htext : join term (l :: ls) ++ rest = l ++ term :: (join term ls ++ rest) := by simp [join]
    rw [htext, split, splitFrom_append (h l (by simp)), List.nil_append, List.cons_append]
    exact congrArg (l :: ·) (ih fun x hx => h x (List.mem_cons_of_mem _ hx))

theorem split_join {lines : List (List α)} (h : ∀ l ∈ lines, term ∉ l) :
    split term (join term lines) = lines := by
  have happend := split_join_append h []
  rw [List.append_nil] at happend
  exact happend.trans (List.append_nil lines)

theorem not_mem_of_mem_splitFrom {text cur line : List α} (hcur : term ∉ cur)
    (h : line ∈ splitFrom term text cur) : term ∉ line := by
  induction text generalizing cur with
  | nil =>
    simp only [splitFrom] at h
    split_ifs at h
    · simp at h
    · rwa [List.mem_singleton.mp h]
  | cons c cs ih =>
    simp only [splitFrom] at h
    split_ifs at h with hc
    · rcases List.mem_cons.mp h with rfl | h
      · exact hcur
      · exact ih List.not_mem_nil h
    · refine ih ?_ h
      simp only [List.mem_append, List.mem_singleton, not_or]
      exact ⟨hcur, fun he => hc he.symm⟩

theorem not_mem_of_mem_split {text line : List α} (h : line ∈ split term text) : term ∉ line :=
  not_mem_of_mem_splitFrom List.not_mem_nil h

theorem splitFrom_of_no_term {line : List α} (h : term ∉ line) (cur : List α) :
    splitFrom term line cur = if (cur ++ line).isEmpty then [] else [cur ++ line] := by
  induction line generalizing cur with
  | nil => simp [splitFrom]
  | cons c cs ih =>
    have hc : c ≠ term := by
      rintro rfl
      simp at h
    have hcs : term ∉ cs := fun hmem => h (List.mem_cons_of_mem _ hmem)
    rw [splitFrom, if_neg hc, ih hcs]
    simp

theorem split_join_dropLast {lines : List (List α)} {l : List α} (h : ∀ x ∈ lines, term ∉ x)
    (hl : term ∉ l) (hne : l ≠ []) : split term (join term lines ++ l) = lines ++ [l] := by
  rw [split_join_append h, split, splitFrom_of_no_term hl]
  simp [hne]

/-- The lines of a text, each with its terminator, are hardly longer than the text. -/
theorem length_join_split_le (text : List α) :
    (join term (split term text)).length ≤ text.length + 1 := by
  have hfrom (text : List α) : ∀ cur : List α,
      (join term (splitFrom term text cur)).length ≤ cur.length + text.length + 1 := by
    induction text with
    | nil =>
      intro cur
      simp only [splitFrom]
      split_ifs <;> simp [join]
    | cons c cs ih =>
      intro cur
      simp only [splitFrom]
      split_ifs
      · have := ih []
        simp only [join, List.flatMap_cons, List.length_append, List.length_cons,
          List.length_nil] at this ⊢
        omega
      · have := ih (cur ++ [c])
        simp only [List.length_append, List.length_cons, List.length_nil] at this ⊢
        omega
  have := hfrom text []
  rw [List.length_nil] at this
  rw [split]
  omega

/-- A text that is cut off has its first lines, and perhaps a part of the next one. -/
theorem split_take_join {lines : List (List α)} (h : ∀ l ∈ lines, term ∉ l) (k : ℕ) :
    split term ((join term lines).take k) = lines ∨ ∃ before line after part,
      lines = before ++ line :: after ∧ part <+: line ∧
      split term ((join term lines).take k) = before ++ if part.isEmpty then [] else [part] := by
  induction lines generalizing k with
  | nil => exact .inl (by simp [join, split, splitFrom])
  | cons l ls ih =>
    have hl : term ∉ l := h l (by simp)
    have htext : join term (l :: ls) = l ++ term :: join term ls := by simp [join]
    rw [htext]
    rcases Nat.lt_or_ge l.length k with hlt | hle
    · obtain ⟨n, rfl⟩ : ∃ n, k = l.length + (n + 1) := ⟨k - l.length - 1, by omega⟩
      have htake : (l ++ term :: join term ls).take (l.length + (n + 1)) =
          l ++ term :: (join term ls).take n := by
        rw [List.take_length_add_append, List.take_succ_cons]
      rw [htake, split, splitFrom_append hl, List.nil_append]
      rcases ih (fun x hx => h x (List.mem_cons_of_mem _ hx)) n with heq | ⟨before, line, after, part,
        hlines, hpart, heq⟩
      · exact .inl (congrArg (l :: ·) heq)
      · refine .inr ⟨l :: before, line, after, part, by rw [hlines]; rfl, hpart, ?_⟩
        exact congrArg (l :: ·) heq
    · rw [List.take_append_of_le_length hle]
      refine .inr ⟨[], l, ls, l.take k, rfl, List.take_prefix k l, ?_⟩
      rw [split, splitFrom_of_no_term fun hmem => hl (List.mem_of_mem_take hmem)]
      rfl

end Lines
