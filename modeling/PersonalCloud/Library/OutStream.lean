import Mathlib.Tactic

/-! A file opened for writing through a buffer. The file may take a part of the buffered data
at any write and has to take all of it at a seek, a flush and a close; each of these can fail
part of the way. `view` is the file as the writer believes it to be. -/

/-- The file `f` after `xs` was stored at offset `pos`; a gap before it is filled. -/
def filePatch {α : Type*} [Inhabited α] (f : List α) (pos : ℕ) (xs : List α) : List α :=
  if xs.isEmpty then f
  else f.take pos ++ List.replicate (pos - f.length) default ++ xs ++ f.drop (pos + xs.length)

/-- What the file does with buffered data: it takes some of it, or it fails after taking some. -/
inductive FileEvent where
  | accept (k : ℕ)
  | fail (k : ℕ)
  deriving DecidableEq

def FileEvent.ok : FileEvent → Bool
  | accept _ => true
  | fail _ => false

def FileEvent.count : FileEvent → ℕ
  | accept k => k
  | fail k => k

structure OutStream (α : Type*) where
  disk : List α
  pos : ℕ
  buffer : List α
  good : Bool
  deriving DecidableEq

namespace OutStream

variable {α : Type*} [Inhabited α]

def opened : OutStream α := ⟨[], 0, [], true⟩

def commit (s : OutStream α) (k : ℕ) : OutStream α :=
  { s with
    disk := filePatch s.disk s.pos (s.buffer.take k)
    pos := s.pos + (s.buffer.take k).length
    buffer := s.buffer.drop k }

/-- The buffered rest is lost when the file fails. -/
def abandon (s : OutStream α) (k : ℕ) : OutStream α :=
  { s.commit k with buffer := [], good := false }

def write (s : OutStream α) (e : FileEvent) (xs : List α) : OutStream α :=
  if s.good then
    match e with
    | .accept k => { s with buffer := s.buffer ++ xs }.commit k
    | .fail k => { s with buffer := s.buffer ++ xs }.abandon k
  else s

def flush (s : OutStream α) (e : FileEvent) : OutStream α :=
  if s.good then
    match e with
    | .accept _ => s.commit s.buffer.length
    | .fail k => s.abandon k
  else s

def seek (s : OutStream α) (e : FileEvent) (p : ℕ) : OutStream α :=
  if (s.flush e).good then { s.flush e with pos := p } else s.flush e

/-- What the file holds after the close. -/
def close (s : OutStream α) (e : FileEvent) : List α := (s.flush e).disk

def view (s : OutStream α) : List α := filePatch s.disk s.pos s.buffer

def tell (s : OutStream α) : ℕ := s.pos + s.buffer.length

end OutStream

section Patch

variable {α : Type*} [Inhabited α]

@[simp] theorem filePatch_nil (f : List α) (pos : ℕ) : filePatch f pos [] = f := rfl

private def front (f : List α) (pos : ℕ) : List α :=
  f.take pos ++ List.replicate (pos - f.length) default

private theorem front_length (f : List α) (pos : ℕ) : (front f pos).length = pos := by
  simp only [front, List.length_append, List.length_take, List.length_replicate]
  omega

private theorem filePatch_eq (f : List α) (pos : ℕ) {xs : List α} (h : xs ≠ []) :
    filePatch f pos xs = front f pos ++ (xs ++ f.drop (pos + xs.length)) := by
  simp [filePatch, front, h]

theorem filePatch_length (f : List α) (pos : ℕ) {xs : List α} (h : xs ≠ []) :
    (filePatch f pos xs).length = max f.length (pos + xs.length) := by
  rw [filePatch_eq f pos h]
  simp only [List.length_append, front_length, List.length_drop]
  omega

/-- Two patches one behind the other are one patch. -/
theorem filePatch_append (f : List α) (pos : ℕ) (xs ys : List α) :
    filePatch (filePatch f pos xs) (pos + xs.length) ys = filePatch f pos (xs ++ ys) := by
  by_cases hx : xs = []
  · simp [hx]
  by_cases hy : ys = []
  · simp [hy]
  have hlen : (front f pos ++ xs).length = pos + xs.length := by simp [front_length]
  have hle : pos + xs.length ≤ (filePatch f pos xs).length := by
    rw [filePatch_length f pos hx]
    omega
  have hsplit : filePatch f pos xs = (front f pos ++ xs) ++ f.drop (pos + xs.length) := by
    rw [filePatch_eq f pos hx, List.append_assoc]
  have hfront : front (filePatch f pos xs) (pos + xs.length) = front f pos ++ xs := by
    rw [front, Nat.sub_eq_zero_of_le hle, hsplit, List.take_left' hlen]
    simp
  have hdrop : (filePatch f pos xs).drop (pos + xs.length + ys.length) =
      f.drop (pos + (xs ++ ys).length) := by
    rw [← List.drop_drop, hsplit, List.drop_left' hlen, List.drop_drop, List.length_append]
    congr 1
    omega
  have hxy : xs ++ ys ≠ [] := by simp [hx]
  rw [filePatch_eq _ _ hy, hfront, hdrop, filePatch_eq f pos hxy]
  simp

theorem filePatch_middle (a b c xs : List α) (h : xs.length = b.length) :
    filePatch (a ++ (b ++ c)) a.length xs = a ++ (xs ++ c) := by
  by_cases hx : xs = []
  · have hb : b = [] := List.eq_nil_of_length_eq_zero (by simpa [hx] using h.symm)
    simp [hx, hb]
  have hfront : front (a ++ (b ++ c)) a.length = a := by simp [front]
  have hdrop : (a ++ (b ++ c)).drop (a.length + xs.length) = c := by
    rw [← List.drop_drop, List.drop_left, h, List.drop_left]
  rw [filePatch_eq _ _ hx, hfront, hdrop]

theorem filePatch_gap (a xs : List α) {pos : ℕ} (h : a.length ≤ pos) (hx : xs ≠ []) :
    filePatch a pos xs = a ++ List.replicate (pos - a.length) default ++ xs := by
  have hdrop : a.drop (pos + xs.length) = [] := List.drop_eq_nil_of_le (by omega)
  have hfront : front a pos = a ++ List.replicate (pos - a.length) default := by
    simp [front, List.take_of_length_le h]
  rw [filePatch_eq _ _ hx, hfront, hdrop, List.append_nil]

end Patch

namespace OutStream

variable {α : Type*} [Inhabited α]

@[simp] theorem commit_good (s : OutStream α) (k : ℕ) : (s.commit k).good = s.good := rfl

@[simp] theorem abandon_good (s : OutStream α) (k : ℕ) : (s.abandon k).good = false := rfl

/-- Handing a part of the buffer over changes nothing for the writer. -/
@[simp] theorem commit_view (s : OutStream α) (k : ℕ) : (s.commit k).view = s.view := by
  simp only [commit, view, filePatch_append, List.take_append_drop]

@[simp] theorem commit_tell (s : OutStream α) (k : ℕ) : (s.commit k).tell = s.tell := by
  simp only [commit, tell, List.length_take, List.length_drop]
  omega

theorem good_of_write {s : OutStream α} {e : FileEvent} {xs : List α}
    (h : (s.write e xs).good = true) : s.good = true ∧ e.ok = true := by
  unfold write at h
  split_ifs at h with hs
  · cases e with
    | accept k => exact ⟨hs, rfl⟩
    | fail k => simp at h
  · exact absurd h hs

theorem good_of_flush {s : OutStream α} {e : FileEvent} (h : (s.flush e).good = true) :
    s.good = true ∧ e.ok = true := by
  unfold flush at h
  split_ifs at h with hs
  · cases e with
    | accept k => exact ⟨hs, rfl⟩
    | fail k => simp at h
  · exact absurd h hs

theorem write_good {s : OutStream α} {e : FileEvent} (xs : List α) (hs : s.good = true)
    (he : e.ok = true) : (s.write e xs).good = true := by
  cases e with
  | accept k => simp [write, hs]
  | fail k => simp [FileEvent.ok] at he

theorem flush_good {s : OutStream α} {e : FileEvent} (hs : s.good = true) (he : e.ok = true) :
    (s.flush e).good = true := by
  cases e with
  | accept k => simp [flush, hs]
  | fail k => simp [FileEvent.ok] at he

/-- A write that leaves the stream good stores the data at the current offset. -/
theorem write_view {s : OutStream α} {e : FileEvent} {xs : List α}
    (h : (s.write e xs).good = true) : (s.write e xs).view = filePatch s.view s.tell xs := by
  obtain ⟨hs, he⟩ := good_of_write h
  cases e with
  | accept k =>
    simp only [write, hs, ↓reduceIte, commit_view]
    simp only [view, tell, filePatch_append]
  | fail k => simp [FileEvent.ok] at he

theorem write_tell {s : OutStream α} {e : FileEvent} {xs : List α}
    (h : (s.write e xs).good = true) : (s.write e xs).tell = s.tell + xs.length := by
  obtain ⟨hs, he⟩ := good_of_write h
  cases e with
  | accept k =>
    simp only [write, hs, ↓reduceIte, commit_tell]
    simp only [tell, List.length_append, Nat.add_assoc]
  | fail k => simp [FileEvent.ok] at he

theorem flush_disk {s : OutStream α} {e : FileEvent} (h : (s.flush e).good = true) :
    (s.flush e).disk = s.view ∧ (s.flush e).buffer = [] ∧ (s.flush e).view = s.view := by
  obtain ⟨hs, he⟩ := good_of_flush h
  cases e with
  | accept k => simp [flush, hs, commit, view]
  | fail k => simp [FileEvent.ok] at he

theorem good_of_seek {s : OutStream α} {e : FileEvent} {p : ℕ} (h : (s.seek e p).good = true) :
    s.good = true ∧ e.ok = true := by
  unfold seek at h
  split_ifs at h with hg
  · exact good_of_flush hg
  · exact absurd h hg

theorem seek_good {s : OutStream α} {e : FileEvent} (p : ℕ) (hs : s.good = true)
    (he : e.ok = true) : (s.seek e p).good = true := by
  simp [seek, flush_good hs he]

theorem seek_eq {s : OutStream α} {e : FileEvent} {p : ℕ} (h : (s.seek e p).good = true) :
    s.seek e p = ⟨s.view, p, [], true⟩ := by
  obtain ⟨hs, he⟩ := good_of_seek h
  have hg := flush_good hs he
  obtain ⟨hd, hb, -⟩ := flush_disk hg
  unfold seek
  rw [if_pos hg]
  dsimp only
  rw [hd, hb, hg]

/-- Data written right behind a seek lands at the offset sought. -/
theorem seek_write_view {s : OutStream α} {e₁ e₂ : FileEvent} {p : ℕ} {xs : List α}
    (h : ((s.seek e₁ p).write e₂ xs).good = true) :
    ((s.seek e₁ p).write e₂ xs).view = filePatch s.view p xs := by
  rw [write_view h, seek_eq (good_of_write h).1]
  simp [view, tell]

/-- A writer at the end of what it has written. -/
def AtEnd (s : OutStream α) : Prop := s.tell = s.view.length

theorem opened_atEnd : (opened : OutStream α).AtEnd := rfl

theorem write_append {s : OutStream α} {e : FileEvent} {xs : List α} (hend : s.AtEnd)
    (h : (s.write e xs).good = true) :
    (s.write e xs).view = s.view ++ xs ∧ (s.write e xs).AtEnd := by
  have hview : (s.write e xs).view = s.view ++ xs := by
    rw [write_view h, hend]
    by_cases hx : xs = []
    · simp [hx]
    · rw [filePatch_gap _ _ le_rfl hx]
      simp
  refine ⟨hview, ?_⟩
  rw [AtEnd, write_tell h, hview, hend, List.length_append]

theorem close_eq_view {s : OutStream α} {e : FileEvent} (hs : s.good = true) (he : e.ok = true) :
    s.close e = s.view :=
  (flush_disk (flush_good hs he)).1

/-- What a single write behind a flushed position leaves on disk after the close: all of it, or
what the write and the failing close together handed over. -/
theorem close_write {f xs : List α} {pos : ℕ} {e₁ e₂ : FileEvent} (he : e₁.ok = true) :
    ((⟨f, pos, [], true⟩ : OutStream α).write e₁ xs).close e₂ =
      filePatch f pos (xs.take (if e₂.ok then xs.length else e₁.count + e₂.count)) := by
  cases e₁ with
  | fail k => simp [FileEvent.ok] at he
  | accept k =>
    cases e₂ with
    | accept j =>
      have hg : ((⟨f, pos, [], true⟩ : OutStream α).write (.accept k) xs).good = true :=
        write_good xs rfl rfl
      rw [close_eq_view hg rfl, write_view hg]
      simp [view, tell, FileEvent.ok]
    | fail j =>
      simp only [close, flush, write, abandon, commit, FileEvent.ok, FileEvent.count,
        List.nil_append, ↓reduceIte, Bool.false_eq_true, filePatch_append]
      rw [List.take_add]

theorem close_of_buffer_nil {s : OutStream α} (e : FileEvent) (hb : s.buffer = []) :
    s.close e = s.disk := by
  unfold close flush
  split_ifs with hs
  · cases e with
    | accept k => simp [commit, hb]
    | fail k => simp [abandon, commit, hb]
  · rfl

def writeAll (events : ℕ → FileEvent) : ℕ → List (List α) → OutStream α → OutStream α
  | _, [], s => s
  | k, xs :: rest, s => writeAll events (k + 1) rest (s.write (events k) xs)

theorem good_of_writeAll {events : ℕ → FileEvent} {k : ℕ} {parts : List (List α)}
    {s : OutStream α} (h : (s.writeAll events k parts).good = true) : s.good = true := by
  induction parts generalizing k s with
  | nil => exact h
  | cons xs parts ih => exact (good_of_write (ih h)).1

theorem writeAll_append {events : ℕ → FileEvent} {k : ℕ} {parts : List (List α)}
    {s : OutStream α} (hend : s.AtEnd) (h : (s.writeAll events k parts).good = true) :
    (s.writeAll events k parts).view = s.view ++ parts.flatten := by
  induction parts generalizing k s with
  | nil => simp [writeAll]
  | cons xs parts ih =>
    have hwrite : (s.write (events k) xs).good = true := good_of_writeAll h
    obtain ⟨hview, hend'⟩ := write_append hend hwrite
    rw [writeAll, ih hend' h, hview, List.flatten_cons, List.append_assoc]

/-- How much is left in the buffer after writes of the given lengths. -/
def leftOver (events : ℕ → FileEvent) : ℕ → ℕ → List ℕ → ℕ
  | _, pending, [] => pending
  | k, pending, n :: ns => leftOver events (k + 1) (pending + n - (events k).count) ns

/-- The file and the buffer together are what was written. -/
structure Appending (s : OutStream α) (written : List α) : Prop where
  good : s.good = true
  pos : s.pos = s.disk.length
  all : s.disk ++ s.buffer = written

theorem filePatch_end (f xs : List α) : filePatch f f.length xs = f ++ xs := by
  by_cases hx : xs = []
  · simp [hx]
  · rw [filePatch_gap f xs le_rfl hx]
    simp

theorem Appending.write {s : OutStream α} {written : List α} (h : s.Appending written)
    {e : FileEvent} (he : e.ok = true) (xs : List α) :
    (s.write e xs).Appending (written ++ xs) ∧
      (s.write e xs).buffer.length = s.buffer.length + xs.length - e.count := by
  cases e with
  | fail k => contradiction
  | accept k =>
    simp only [OutStream.write, h.good, ↓reduceIte, commit, FileEvent.count]
    refine ⟨⟨rfl, ?_, ?_⟩, by simp⟩
    · simp [h.pos, filePatch_end]
    · simp [h.pos, filePatch_end, ← h.all]

theorem Appending.writeAll {s : OutStream α} {written : List α} (h : s.Appending written)
    {events : ℕ → FileEvent} {k : ℕ} {parts : List (List α)}
    (hok : ∀ j < parts.length, (events (k + j)).ok = true) :
    (s.writeAll events k parts).Appending (written ++ parts.flatten) ∧
      (s.writeAll events k parts).buffer.length =
        leftOver events k s.buffer.length (parts.map List.length) := by
  induction parts generalizing s written k with
  | nil => exact ⟨by simpa [OutStream.writeAll] using h, rfl⟩
  | cons xs parts ih =>
    have hfirst : (events k).ok = true := hok 0 (by simp)
    obtain ⟨hwrite, hbuffer⟩ := h.write hfirst xs
    have htail : ∀ j < parts.length, (events (k + 1 + j)).ok = true := by
      intro j hj
      have hnext : k + 1 + j = k + (j + 1) := by omega
      rw [hnext]
      exact hok (j + 1) (by simpa using hj)
    obtain ⟨hall, hleft⟩ := ih hwrite htail
    refine ⟨by simpa [OutStream.writeAll, List.append_assoc] using hall, ?_⟩
    rw [OutStream.writeAll, hleft, List.map_cons, leftOver, hbuffer]

/-- What is on disk after the close: all that was written, without the part of the buffer that a
failing close has not taken. -/
theorem Appending.close_eq {s : OutStream α} {written : List α} (h : s.Appending written)
    (e : FileEvent) : s.close e =
      if e.ok then written else written.take (written.length - (s.buffer.length - e.count)) := by
  have hclose (k : ℕ) : (s.commit k).disk = s.disk ++ s.buffer.take k := by
    rw [commit, h.pos, filePatch_end]
  cases e with
  | accept k =>
    simp only [close, flush, h.good, ↓reduceIte, hclose, List.take_length, h.all, FileEvent.ok]
  | fail k =>
    have habandon : (s.abandon k).disk = (s.commit k).disk := rfl
    simp only [close, flush, h.good, ↓reduceIte, habandon, hclose, ← h.all, FileEvent.ok,
      FileEvent.count, Bool.false_eq_true, List.length_append]
    rcases Nat.le_total s.buffer.length k with hk | hk
    · rw [List.take_of_length_le hk, List.take_of_length_le (by simp; omega)]
    · have hlost : s.disk.length + s.buffer.length - (s.buffer.length - k) = s.disk.length + k := by
        omega
      rw [hlost, List.take_length_add_append]

/-- All that was written is on disk after the close, unless the close fails before it has taken
the rest of the buffer. -/
theorem Appending.close_eq_iff {s : OutStream α} {written : List α} (h : s.Appending written)
    (e : FileEvent) :
    s.close e = written ↔ e.ok = true ∨ s.buffer.length ≤ e.count := by
  have hbuffer : s.buffer.length ≤ written.length := by simp [← h.all]
  rw [h.close_eq]
  split_ifs with hok
  · simp [hok]
  · rw [List.take_eq_self_iff, or_iff_right hok]
    omega

end OutStream
