import PersonalCloud.Library.Assoc
import PersonalCloud.Library.Lines
import PersonalCloud.Library.Occurrence
import PersonalCloud.Server.Store

/-! The memory of the watch command: what was last uploaded for a name, and the file it is kept in
between two runs. -/
namespace PersonalCloud

open Proto

/-- Size and modification time of a file when it was last uploaded. -/
structure Seen where
  size : UInt64
  modified : Int64
  deriving DecidableEq

abbrev WatchState := AList fun _ : Bytes => Seen

namespace WatchState

def kStateMagic : Bytes := ascii "pcs-watch"
def kStateVersion : ℕ := 1
def kFile : Bytes := ascii "file"

/-- `UINT64_MAX / 2`. -/
def kMaxSize : UInt64 := 9223372036854775807

def clampInt64 (v : ℤ) : Int64 := Int64.ofInt (max (-2 ^ 63) (min v (2 ^ 63 - 1)))

def isWhite (c : UInt8) : Bool := c == 32 || (decide (9 ≤ c) && decide (c ≤ 13))

/-- The number at the start of a text; a value out of range becomes the nearest one in range. -/
def strtoll (text : Bytes) : Int64 :=
  match text.dropWhile isWhite with
  | 45 :: ds => clampInt64 (-(Decimal.value (ds.takeWhile Decimal.isDigit) : ℤ))
  | 43 :: ds => clampInt64 (Decimal.value (ds.takeWhile Decimal.isDigit))
  | ds => clampInt64 (Decimal.value (ds.takeWhile Decimal.isDigit))

def nameAt (line modified : Bytes) : ℕ :=
  match Occurrence.find modified line with
  | some i => i + modified.length + 1
  -- one past `npos` is zero
  | none => modified.length

/-- The entry of one line behind the first; other lines are passed over. -/
def readSeen (line : Bytes) : Option (Sigma fun _ : Bytes => Seen) :=
  match split line with
  | word :: size :: modified :: _ :: _ =>
      if word ≠ kFile then none
      else match parseSize size kMaxSize with
        | none => none
        | some n =>
            if line.length ≤ nameAt line modified then none
            else some ⟨line.drop (nameAt line modified), n, strtoll modified⟩
  | _ => none

/-- `none` when the file is refused. No state yet is normal. -/
def load : Option Bytes → Option WatchState
  | none => some ∅
  | some text =>
      match Lines.split 10 text with
      | [] => some ∅
      | first :: lines =>
          match split first with
          | [magic, version] =>
              if magic ≠ kStateMagic then none
              else if version ≠ Decimal.text kStateVersion then none
              else some (Assoc.collect readSeen lines ∅)
          | _ => none

def seenLine (e : Sigma fun _ : Bytes => Seen) : Bytes :=
  sp kFile (sp (Decimal.text e.2.size.toNat) (sp (Decimal.signedText e.2.modified.toInt) e.1))

def sorted (st : WatchState) : List (Sigma fun _ : Bytes => Seen) :=
  st.entries.insertionSort fun a b => Store.nameLe a.1 b.1 = true

def saveLines (st : WatchState) : List Bytes :=
  sp kStateMagic (Decimal.text kStateVersion) :: (sorted st).map seenLine

/-- The file as `save` writes it. -/
def saveText (st : WatchState) : Bytes := Lines.join 10 (saveLines st)

def unchanged (st : WatchState) (name : Bytes) (now : Seen) : Bool :=
  match st.lookup name with
  | none => false
  | some seen => seen.size == now.size && seen.modified == now.modified

def record (st : WatchState) (name : Bytes) (now : Seen) : WatchState := st.insert name now

theorem clampInt64_toInt (z : Int64) : clampInt64 z.toInt = z := by
  have hlo := z.le_toInt
  have hhi := z.toInt_lt
  rw [clampInt64, min_eq_left (by omega), max_eq_right (by omega), Int64.ofInt_toInt]

theorem takeWhile_text (n : ℕ) : (Decimal.text n).takeWhile Decimal.isDigit = Decimal.text n :=
  List.takeWhile_eq_self_iff.mpr (Decimal.text_digits n)

theorem strtoll_text (n : ℕ) : strtoll (Decimal.text n) = clampInt64 n := by
  obtain ⟨c, cs, hcs⟩ := List.exists_cons_of_ne_nil (Decimal.text_ne_nil n)
  have hc : Decimal.isDigit c = true := Decimal.text_digits n c (by simp [hcs])
  rw [Decimal.isDigit_iff] at hc
  have hwhite : isWhite c = false := by
    simp only [isWhite, Bool.or_eq_false_iff, beq_eq_false_iff_ne, Bool.and_eq_false_iff,
      decide_eq_false_iff_not, UInt8.le_iff_toNat_le, not_le]
    constructor
    · rintro rfl
      simp at hc
    · right
      change 13 < c.toNat
      omega
  have hdrop : (Decimal.text n).dropWhile isWhite = Decimal.text n := by
    rw [hcs, List.dropWhile_cons_of_neg (by simp [hwhite])]
  have hminus : c ≠ 45 := by
    rintro rfl
    simp at hc
  have hplus : c ≠ 43 := by
    rintro rfl
    simp at hc
  have hvalue : Decimal.value ((Decimal.text n).takeWhile Decimal.isDigit) = n := by
    rw [takeWhile_text, Decimal.value_text]
  unfold strtoll
  rw [hdrop]
  split
  · next heq => exact absurd (List.cons.inj (hcs.symm.trans heq)).1 hminus
  · next heq => exact absurd (List.cons.inj (hcs.symm.trans heq)).1 hplus
  · rw [hvalue]

theorem strtoll_signedText (z : Int64) : strtoll (Decimal.signedText z.toInt) = z := by
  have hclamp := clampInt64_toInt z
  cases hz : z.toInt with
  | ofNat n =>
    rw [hz] at hclamp
    exact (strtoll_text n).trans hclamp
  | negSucc n =>
    rw [hz] at hclamp
    have hdrop : (45 :: Decimal.text (n + 1)).dropWhile isWhite = 45 :: Decimal.text (n + 1) := rfl
    rw [Decimal.signedText, strtoll, hdrop]
    simp only [takeWhile_text, Decimal.value_text]
    exact hclamp

variable {name : Bytes} {seen : Seen} {st : WatchState}

/-- The name is not all spaces, and the digits of the time do not occur in those of the size, where
they would be found first. -/
def NameFound (name : Bytes) (seen : Seen) : Prop :=
  (∃ c ∈ name, c ≠ 32) ∧
    ¬ Decimal.signedText seen.modified.toInt <:+: Decimal.text seen.size.toNat

theorem split_seenLine (name : Bytes) (seen : Seen) :
    split (seenLine ⟨name, seen⟩) =
      kFile :: Decimal.text seen.size.toNat :: Decimal.signedText seen.modified.toInt ::
        split name := by
  rw [seenLine, split_sp (by decide), split_sp (isWord_text _), split_sp (isWord_signedText _)]

theorem split_eq_nil_iff : split name = [] ↔ ¬ ∃ c ∈ name, c ≠ 32 := by
  rw [split, Tokens.fields_eq_nil_iff]
  simp [isSpace]

/-- The search for the time passes over the word in front of the size. -/
theorem find_seenLine (name : Bytes) (seen : Seen) :
    Occurrence.find (Decimal.signedText seen.modified.toInt) (seenLine ⟨name, seen⟩) =
      (Occurrence.find (Decimal.signedText seen.modified.toInt)
        (sp (Decimal.text seen.size.toNat)
          (sp (Decimal.signedText seen.modified.toInt) name))).map (· + (kFile.length + 1)) := by
  have hsep : (32 : UInt8) ∉ Decimal.signedText seen.modified.toInt :=
    Decimal.signedText_not_mem (by decide) (by decide)
  have hnot : ¬ Decimal.signedText seen.modified.toInt <:+: kFile := by
    intro h
    obtain ⟨c, cs, hcs⟩ :=
      List.exists_cons_of_ne_nil (Decimal.signedText_ne_nil seen.modified.toInt)
    have hmem : c ∈ Decimal.signedText seen.modified.toInt := by simp [hcs]
    have hword : ∀ c ∈ kFile, Decimal.isDigit c = false ∧ c ≠ 45 := by decide
    have hc := hword c (h.subset hmem)
    exact Decimal.signedText_not_mem hc.1 hc.2 hmem
  exact Occurrence.find_append_sep hsep (Decimal.signedText_ne_nil _) hnot _

theorem readSeen_seenLine (hsize : seen.size ≤ kMaxSize) (h : NameFound name seen) :
    readSeen (seenLine ⟨name, seen⟩) = some ⟨name, seen⟩ := by
  obtain ⟨hname, hinfix⟩ := h
  obtain ⟨field, fields, hfields⟩ := List.exists_cons_of_ne_nil
    (mt split_eq_nil_iff.mp (not_not_intro hname))
  have hsep : (32 : UInt8) ∉ Decimal.signedText seen.modified.toInt :=
    Decimal.signedText_not_mem (by decide) (by decide)
  have hfind : Occurrence.find (Decimal.signedText seen.modified.toInt) (seenLine ⟨name, seen⟩) =
      some ((Decimal.text seen.size.toNat).length + 1 + (kFile.length + 1)) := by
    rw [find_seenLine, sp, Occurrence.find_append_sep hsep (Decimal.signedText_ne_nil _) hinfix, sp,
      Occurrence.find_append_self (Decimal.signedText_ne_nil _)]
    simp
  have hdrop : (seenLine ⟨name, seen⟩).drop
      (nameAt (seenLine ⟨name, seen⟩) (Decimal.signedText seen.modified.toInt)) = name := by
    have hline : seenLine ⟨name, seen⟩ = (kFile ++ [32] ++ Decimal.text seen.size.toNat ++ [32] ++
        Decimal.signedText seen.modified.toInt ++ [32]) ++ name := by
      simp [seenLine, sp]
    rw [nameAt, hfind, hline]
    apply List.drop_left'
    simp only [List.length_append, List.length_singleton]
    omega
  have hlen : ¬ (seenLine ⟨name, seen⟩).length ≤
      nameAt (seenLine ⟨name, seen⟩) (Decimal.signedText seen.modified.toInt) := by
    intro hle
    rw [List.drop_eq_nil_of_le hle] at hdrop
    obtain ⟨c, hc, -⟩ := hname
    simp [← hdrop] at hc
  have hparse : parseSize (Decimal.text seen.size.toNat) kMaxSize = some seen.size := by
    rw [parseSize_text (UInt64.le_iff_toNat_le.mp hsize), UInt64.ofNat_toNat]
  rw [readSeen, split_seenLine, hfields]
  simp only [ne_eq, not_true_eq_false, ↓reduceIte, hparse, hlen, hdrop, strtoll_signedText]

/-- A line whose name is not found is passed over, or names another file, by a longer name. -/
theorem lt_length_of_readSeen (h : ¬ NameFound name seen) {e : Sigma fun _ : Bytes => Seen}
    (he : readSeen (seenLine ⟨name, seen⟩) = some e) : name.length < e.1.length := by
  by_cases hname : ∃ c ∈ name, c ≠ 32
  · have hinfix : Decimal.signedText seen.modified.toInt <:+: Decimal.text seen.size.toNat := by
      by_contra hnot
      exact h ⟨hname, hnot⟩
    obtain ⟨i, hi, hle⟩ := Occurrence.find_of_isInfix hinfix
      (32 :: sp (Decimal.signedText seen.modified.toInt) name)
    have hat : nameAt (seenLine ⟨name, seen⟩) (Decimal.signedText seen.modified.toInt) =
        i + (kFile.length + 1) + (Decimal.signedText seen.modified.toInt).length + 1 := by
      rw [nameAt, find_seenLine, sp, hi]
      rfl
    have hpos : 0 < (Decimal.signedText seen.modified.toInt).length :=
      List.length_pos_iff.mpr (Decimal.signedText_ne_nil _)
    rw [readSeen, split_seenLine] at he
    split at he
    · next word size modified field fields heq =>
      simp only [List.cons.injEq] at heq
      obtain ⟨rfl, rfl, rfl, -⟩ := heq
      rw [if_neg (not_not_intro rfl)] at he
      split at he
      · simp at he
      · split_ifs at he
        rw [← Option.some.inj he, List.length_drop, hat]
        simp only [seenLine, sp, List.length_append, List.length_cons]
        omega
    · simp at he
  · rw [readSeen, split_seenLine, split_eq_nil_iff.mpr hname] at he
    simp at he

/-- Entries as the watch loop makes them, with sizes that the loader takes. -/
def Storable (st : WatchState) : Prop :=
  ∀ name seen, st.lookup name = some seen → isSafeName name = true ∧ seen.size ≤ kMaxSize

theorem not_mem_of_isSafeName (h : isSafeName name = true) : 10 ∉ name := by
  intro hmem
  unfold isSafeName at h
  split_ifs at h
  exact absurd (List.all_eq_true.mp h 10 hmem) (by decide)

theorem not_mem_saveLines (h : Storable st) : ∀ l ∈ saveLines st, 10 ∉ l := by
  intro l hl
  rcases List.mem_cons.mp hl with rfl | hl
  · decide
  · obtain ⟨e, he, rfl⟩ := List.mem_map.mp hl
    have hname := not_mem_of_isSafeName (h e.1 e.2 (Assoc.lookup_of_mem_sort he)).1
    have hfile : (10 : UInt8) ∉ kFile := by decide
    have hsize : 10 ∉ Decimal.text e.2.size.toNat := Decimal.text_not_mem (by decide)
    have htime : 10 ∉ Decimal.signedText e.2.modified.toInt :=
      Decimal.signedText_not_mem (by decide) (by decide)
    simp [seenLine, sp, hname, hfile, hsize, htime]

theorem load_saveText (h : Storable st) :
    load (some (saveText st)) =
      some (Assoc.collect readSeen ((sorted st).map seenLine) ∅) := by
  have hsplit : Lines.split 10 (saveText st) = saveLines st :=
    Lines.split_join (not_mem_saveLines h)
  have hhead : split (sp kStateMagic (Decimal.text kStateVersion)) =
      [kStateMagic, Decimal.text kStateVersion] := by
    rw [split_sp (by decide), split_word (isWord_text _)]
  simp only [load, hsplit, saveLines, hhead, ne_eq, not_true_eq_false, ↓reduceIte]

/-- An entry that is not found again leaves the loaded memory different from the saved one. -/
theorem nameFound_of_lookup_eq
    (hsame : ∀ n, (Assoc.collect readSeen ((sorted st).map seenLine) ∅).lookup n = st.lookup n)
    (h : Storable st) (hlookup : st.lookup name = some seen) : NameFound name seen := by
  -- the line that gave the entry back is its own, or that of a shorter name that is not found
  induction hlen : name.length using Nat.strong_induction_on generalizing name seen with
  | _ n ih =>
    rcases Assoc.mem_of_lookup_collect ((hsame name).trans hlookup) with ⟨line, hline, hread⟩ | hnone
    · obtain ⟨e, he, rfl⟩ := List.mem_map.mp hline
      have hentry := Assoc.lookup_of_mem_sort he
      by_cases hfound : NameFound e.1 e.2
      · rw [readSeen_seenLine (h e.1 e.2 hentry).2 hfound, Option.some.injEq] at hread
        cases hread
        exact hfound
      · have hlt : e.1.length < name.length := lt_length_of_readSeen hfound hread
        exact absurd (ih e.1.length (hlen ▸ hlt) hentry rfl) hfound
    · simp at hnone

/-- The saved memory is loaded again exactly when the name is found in every line: no name is made
of spaces only, and no modification time has its digits inside those of the size. -/
theorem load_saveText_iff (st : WatchState) (h : Storable st) :
    (∃ st', load (some (saveText st)) = some st' ∧ ∀ name, st'.lookup name = st.lookup name) ↔
      ∀ name seen, st.lookup name = some seen → NameFound name seen := by
  rw [load_saveText h]
  constructor
  · rintro ⟨st', hst', hsame⟩ name seen hlookup
    rw [← Option.some.inj hst'] at hsame
    exact nameFound_of_lookup_eq hsame h hlookup
  · intro hfound
    refine ⟨_, rfl, Assoc.lookup_collect (List.perm_insertionSort _ _) fun e he => ?_⟩
    have hentry := Assoc.lookup_of_mem_sort he
    exact readSeen_seenLine (h e.1 e.2 hentry).2 (hfound e.1 e.2 hentry)

def single (name : Bytes) (seen : Seen) : WatchState := record ∅ name seen

theorem lookup_single {n : Bytes} {s : Seen} (h : (single name seen).lookup n = some s) :
    n = name ∧ s = seen := by
  by_cases hn : n = name
  · subst hn
    rw [single, record, AList.lookup_insert, Option.some.injEq] at h
    exact ⟨rfl, h.symm⟩
  · rw [single, record, AList.lookup_insert_ne hn] at h
    simp at h

theorem storable_single (hname : isSafeName name = true) (hsize : seen.size ≤ kMaxSize) :
    Storable (single name seen) := by
  intro n s hs
  obtain ⟨rfl, rfl⟩ := lookup_single hs
  exact ⟨hname, hsize⟩

/-- Of a name with spaces at both ends, and a time before the epoch of its clock. -/
theorem load_saveText_iff_spaces :
    Storable (single (ascii " a  photo ") ⟨4096, -4096⟩) ∧
      ∃ st', load (some (saveText (single (ascii " a  photo ") ⟨4096, -4096⟩))) = some st' ∧
        ∀ name, st'.lookup name = (single (ascii " a  photo ") ⟨4096, -4096⟩).lookup name := by
  have hstorable : Storable (single (ascii " a  photo ") ⟨4096, -4096⟩) :=
    storable_single (by decide) (by decide)
  refine ⟨hstorable, (load_saveText_iff _ hstorable).mpr fun name seen hlookup => ?_⟩
  obtain ⟨rfl, rfl⟩ := lookup_single hlookup
  exact ⟨by decide, by decide⟩

/-- A time that could not be read is recorded as zero; beside a size of ten the entry comes back
under another name. -/
theorem load_saveText_zero_time :
    Storable (single (ascii "photo") ⟨10, 0⟩) ∧
      (single (ascii "photo") ⟨10, 0⟩).lookup (ascii "photo") = some ⟨10, 0⟩ ∧
      ∃ st', load (some (saveText (single (ascii "photo") ⟨10, 0⟩))) = some st' ∧
        st'.lookup (ascii "photo") = none ∧ st'.lookup (ascii "0 photo") = some ⟨10, 0⟩ := by
  have hstorable : Storable (single (ascii "photo") ⟨10, 0⟩) :=
    storable_single (by decide) (by decide)
  exact ⟨hstorable, by decide, _, load_saveText hstorable, by decide, by decide⟩

end WatchState

end PersonalCloud
