import Mathlib.Data.List.Infix
import Mathlib.Tactic

/-! The first place in a list where a word occurs. -/
namespace Occurrence

variable {α : Type*} {key : List α}

/-- A word without the separator is not found across one. -/
theorem isPrefix_of_append_sep {s : α} (hs : s ∉ key) {w xs : List α}
    (h : key <+: w ++ s :: xs) : key <+: w := by
  rcases List.prefix_or_prefix_of_prefix h (List.prefix_append w (s :: xs)) with hp | hp
  · exact hp
  · obtain ⟨t, rfl⟩ := hp
    rw [List.prefix_append_right_inj] at h
    cases t with
    | nil => simp
    | cons c t =>
      exfalso
      have hc : c = s := by
        obtain ⟨u, hu⟩ := h
        exact (List.cons.inj hu).1
      exact hs (by simp [hc])

variable [DecidableEq α]

/-- The number of elements in front of the first occurrence. -/
def find (key : List α) : List α → Option ℕ
  | [] => if key = [] then some 0 else none
  | x :: xs => if key <+: x :: xs then some 0 else (find key xs).map (· + 1)

theorem find_append_self (hne : key ≠ []) (xs : List α) : find key (key ++ xs) = some 0 := by
  obtain ⟨k, ks, rfl⟩ := List.exists_cons_of_ne_nil hne
  exact if_pos (List.prefix_append (k :: ks) xs)

/-- A field that does not contain the word is passed over, with its separator. -/
theorem find_append_sep {s : α} (hs : s ∉ key) (hne : key ≠ []) {w : List α}
    (hw : ¬ key <:+: w) (xs : List α) :
    find key (w ++ s :: xs) = (find key xs).map (· + (w.length + 1)) := by
  induction w with
  | nil =>
    have hnot : ¬ key <+: s :: xs := fun h =>
      hne (List.prefix_nil.mp (isPrefix_of_append_sep (w := []) hs h))
    rw [List.nil_append, find, if_neg hnot]
    rfl
  | cons c w ih =>
    have hnot : ¬ key <+: (c :: w) ++ s :: xs := fun h =>
      hw (isPrefix_of_append_sep hs h).isInfix
    have hw' : ¬ key <:+: w := fun h => hw (h.trans (List.suffix_cons c w).isInfix)
    rw [List.cons_append] at hnot ⊢
    rw [find, if_neg hnot, ih hw', Option.map_map]
    rfl

/-- In a list that contains the word, it is found there. -/
theorem find_of_isInfix {w : List α} (hw : key <:+: w) (xs : List α) :
    ∃ i, find key (w ++ xs) = some i ∧ i + key.length ≤ w.length := by
  induction w with
  | nil =>
    have hkey : key = [] := List.infix_nil.mp hw
    subst hkey
    refine ⟨0, ?_, le_rfl⟩
    cases xs <;> simp [find]
  | cons c w ih =>
    by_cases hp : key <+: (c :: w) ++ xs
    · exact ⟨0, if_pos hp, by simpa using hw.length_le⟩
    · have hw' : key <:+: w := by
        rcases List.infix_cons_iff.mp hw with h | h
        · exact absurd (h.trans (List.prefix_append _ _)) hp
        · exact h
      obtain ⟨i, hi, hle⟩ := ih hw'
      refine ⟨i + 1, ?_, by simp only [List.length_cons]; omega⟩
      rw [List.cons_append] at hp ⊢
      rw [find, if_neg hp, hi]
      rfl

end Occurrence
