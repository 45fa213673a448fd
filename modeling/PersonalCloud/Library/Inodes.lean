import Mathlib.Tactic

/-! A directory whose names lead to files. An open file stays the same file whatever happens to its
name; a rename puts another file under a name, and the old one lives on in the hands that hold it. -/

structure Inodes (ν α : Type*) where
  names : ν → Option ℕ
  content : ℕ → List α
  next : ℕ
  names_lt : ∀ n i, names n = some i → i < next
  /-- There are no hard links. -/
  names_inj : ∀ n n' i, names n = some i → names n' = some i → n = n'

namespace Inodes

variable {ν α : Type*} [DecidableEq ν]

def read (fs : Inodes ν α) (n : ν) : Option (List α) := (fs.names n).map fs.content

/-- Changes a file through an open handle. -/
def modify (fs : Inodes ν α) (i : ℕ) (f : List α → List α) : Inodes ν α :=
  { fs with content := Function.update fs.content i (f (fs.content i)) }

def link (fs : Inodes ν α) (n : ν) : Inodes ν α where
  names := Function.update fs.names n (some fs.next)
  content := Function.update fs.content fs.next []
  next := fs.next + 1
  names_lt m i h := by
    by_cases hm : m = n
    · subst hm
      rw [Function.update_self, Option.some.injEq] at h
      omega
    · rw [Function.update_of_ne hm] at h
      exact Nat.lt_succ_of_lt (fs.names_lt m i h)
  names_inj m m' i h h' := by
    have hnew {k : ν} (hk : k ≠ n) (h : Function.update fs.names n (some fs.next) k = some i) :
        i < fs.next := by
      rw [Function.update_of_ne hk] at h
      exact fs.names_lt k i h
    by_cases hm : m = n <;> by_cases hm' : m' = n
    · rw [hm, hm']
    · subst hm
      rw [Function.update_self, Option.some.injEq] at h
      have hlt := hnew hm' h'
      omega
    · subst hm'
      rw [Function.update_self, Option.some.injEq] at h'
      have hlt := hnew hm h
      omega
    · rw [Function.update_of_ne hm] at h
      rw [Function.update_of_ne hm'] at h'
      exact fs.names_inj m m' i h h'

/-- Opens a name for writing: the file that is there is truncated, and without one a new file is
made. -/
def create (fs : Inodes ν α) (n : ν) : Inodes ν α × ℕ :=
  match fs.names n with
  | some i => (fs.modify i fun _ => [], i)
  | none => (fs.link n, fs.next)

def remove (fs : Inodes ν α) (n : ν) : Inodes ν α where
  names := Function.update fs.names n none
  content := fs.content
  next := fs.next
  names_lt m i h := by
    by_cases hm : m = n
    · subst hm
      simp at h
    · rw [Function.update_of_ne hm] at h
      exact fs.names_lt m i h
  names_inj m m' i h h' := by
    have hm : m ≠ n := by
      rintro rfl
      simp at h
    have hm' : m' ≠ n := by
      rintro rfl
      simp at h'
    rw [Function.update_of_ne hm] at h
    rw [Function.update_of_ne hm'] at h'
    exact fs.names_inj m m' i h h'

/-- Puts the file `i`, which no name leads to, under a name. -/
def place (fs : Inodes ν α) (n : ν) (i : ℕ) (hi : i < fs.next) (hfree : ∀ m, fs.names m ≠ some i) :
    Inodes ν α where
  names := Function.update fs.names n (some i)
  content := fs.content
  next := fs.next
  names_lt m j h := by
    by_cases hm : m = n
    · subst hm
      rw [Function.update_self, Option.some.injEq] at h
      exact h ▸ hi
    · rw [Function.update_of_ne hm] at h
      exact fs.names_lt m j h
  names_inj m m' j h h' := by
    by_cases hm : m = n <;> by_cases hm' : m' = n
    · rw [hm, hm']
    · subst hm
      rw [Function.update_self, Option.some.injEq] at h
      rw [Function.update_of_ne hm', ← h] at h'
      exact absurd h' (hfree m')
    · subst hm'
      rw [Function.update_self, Option.some.injEq] at h'
      rw [Function.update_of_ne hm, ← h'] at h
      exact absurd h (hfree m)
    · rw [Function.update_of_ne hm] at h
      rw [Function.update_of_ne hm'] at h'
      exact fs.names_inj m m' j h h'

theorem names_remove_ne (fs : Inodes ν α) {src : ν} {i : ℕ} (h : fs.names src = some i) (m : ν) :
    (fs.remove src).names m ≠ some i := by
  intro hm
  by_cases hms : m = src
  · subst hms
    simp [remove] at hm
  · have hname : fs.names m = some i := by simpa [remove, hms] using hm
    exact hms (fs.names_inj m src i hname h)

def rename (fs : Inodes ν α) (src dst : ν) : Option (Inodes ν α) :=
  match h : fs.names src with
  | none => none
  | some i =>
      some ((fs.remove src).place dst i (fs.names_lt src i h) (fs.names_remove_ne h))

variable {fs fs' : Inodes ν α} {n m src dst : ν} {i : ℕ}

omit [DecidableEq ν] in
theorem names_ne (hm : m ≠ n) (hn : fs.names n = some i) : fs.names m ≠ some i :=
  fun h => hm (fs.names_inj m n i h hn)

omit [DecidableEq ν] in
theorem read_modify_of_ne (f : List α → List α) (h : fs.names n ≠ some i) :
    (fs.modify i f).read n = fs.read n := by
  simp only [read, modify]
  cases hn : fs.names n with
  | none => rfl
  | some j =>
    have hj : j ≠ i := by
      rintro rfl
      exact h hn
    simp [Function.update_of_ne hj]

omit [DecidableEq ν] in
theorem read_eq_some {c : List α} : fs.read n = some c ↔ ∃ i, fs.names n = some i ∧ fs.content i = c :=
  Option.map_eq_some_iff

theorem create_names (fs : Inodes ν α) (n : ν) : (fs.create n).1.names n = some (fs.create n).2 := by
  unfold create
  split
  · next i h => exact h
  · exact Function.update_self ..

theorem create_content (fs : Inodes ν α) (n : ν) : (fs.create n).1.content (fs.create n).2 = [] := by
  unfold create
  split
  · exact Function.update_self ..
  · exact Function.update_self ..

theorem create_read_ne (h : m ≠ n) : (fs.create n).1.read m = fs.read m := by
  unfold create
  split
  · next i hi => exact read_modify_of_ne _ (names_ne h hi)
  · simp only [read, link, Function.update_of_ne h]
    cases hm : fs.names m with
    | none => rfl
    | some j =>
      have hj : j ≠ fs.next := (fs.names_lt m j hm).ne
      simp [Function.update_of_ne hj]

theorem rename_read (h : fs.rename src dst = some fs') : fs'.read dst = fs.read src := by
  unfold rename at h
  split at h
  · simp at h
  · next i hi =>
    rw [← Option.some.inj h]
    simp [read, place, remove, hi]

theorem read_remove_ne (h : m ≠ n) : (fs.remove n).read m = fs.read m := by
  simp [read, remove, Function.update_of_ne h]

end Inodes
