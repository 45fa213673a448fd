import PersonalCloud.Core.Protocol
import PersonalCloud.Library.Lines
import Mathlib.Data.List.AList
import Mathlib.Data.List.DropRight

/-! The settings file: sections of `key = value` lines, of which one section is read. -/
namespace PersonalCloud

/-- A file as the program finds it: there is none, it cannot be opened, or it has a content. -/
inductive FileState
  | missing
  | unreadable
  | readable (content : Bytes)
  deriving DecidableEq

def FileState.exists : FileState → Bool
  | missing => false
  | _ => true

namespace Settings

def isBlank (c : UInt8) : Bool := c == 32 || c == 9 || c == 13 || c == 10

def trim (text : Bytes) : Bytes := (text.dropWhile isBlank).rdropWhile isBlank

def lowercase (text : Bytes) : Bytes := text.map fun c => if 65 ≤ c ∧ c ≤ 90 then c - 65 + 97 else c

/-- `fs::path::operator/` for a relative right side. -/
def slash (dir name : Bytes) : Bytes :=
  if dir = [] ∨ dir.getLast? = some 47 then dir ++ name else dir ++ 47 :: name

def searchPaths (getenv : Bytes → Option Bytes) (currentPath : Bytes) : List Bytes :=
  (getenv (ascii "PCS_CONFIG")).toList ++ [slash currentPath (ascii "pcs.conf")] ++
    match getenv (ascii "HOME") with
    | none => []
    | some home =>
        if home = [] then []
        else
          ((getenv (ascii "XDG_CONFIG_HOME")).map
            fun xdg => slash (slash xdg (ascii "pcs")) (ascii "pcs.conf")).toList ++
          [slash (slash (slash home (ascii ".config")) (ascii "pcs")) (ascii "pcs.conf"),
            slash home (ascii ".pcs.conf")]

end Settings

structure Settings where
  values : AList fun _ : Bytes => Bytes
  path : Bytes
  profile : Bytes
  loaded : Bool

namespace Settings

def get (s : Settings) (key : Bytes) : Bytes := (s.values.lookup (lowercase key)).getD []

/-- The file to read: the named one, which has to exist, or the first that is found. -/
def choose (files : Bytes → FileState) (searched : List Bytes) (explicitPath : Bytes) :
    Except Bytes (Option Bytes) :=
  if explicitPath ≠ [] then
    if (files explicitPath).exists then .ok (some explicitPath)
    else .error (ascii "no such settings file: " ++ explicitPath)
  else .ok (searched.find? fun candidate => (files candidate).exists)

/-- One line: the current section and the values so far. Only the selected profile is kept. -/
def scanLine (profile : Bytes) (st : Bytes × AList fun _ : Bytes => Bytes) (line : Bytes) :
    Except Bytes (Bytes × AList fun _ : Bytes => Bytes) :=
  let text := trim line
  if text = [] ∨ text.head? = some 35 ∨ text.head? = some 59 then .ok st
  else if text.head? = some 91 then
    if text.getLast? ≠ some 93 then .error (ascii "unclosed section header")
    else .ok (lowercase (trim ((text.drop 1).take (text.length - 2))), st.2)
  else if 61 ∉ text then .error (ascii "expected key = value")
  else if st.1 ≠ profile then .ok st
  else
    let key := lowercase (trim (text.takeWhile (· ≠ 61)))
    let value := trim ((text.dropWhile (· ≠ 61)).drop 1)
    .ok (st.1, if key = [] then st.2 else st.2.insert key value)

def scan (path profile : Bytes) : ℕ → List Bytes → (Bytes × AList fun _ : Bytes => Bytes) →
    Except Bytes (Bytes × AList fun _ : Bytes => Bytes)
  | _, [], st => .ok st
  | number, line :: lines, st =>
      match scanLine profile st line with
      | .error reason =>
          .error (path ++ ascii ":" ++ Decimal.text (number + 1) ++ ascii ": " ++ reason)
      | .ok st => scan path profile (number + 1) lines st

def profileOf (profile : Bytes) : Bytes := if profile = [] then ascii "default" else profile

/-- Loads the file found, selecting `profile`. No file is no error. -/
def load (files : Bytes → FileState) (searched : List Bytes) (explicitPath profile : Bytes) :
    Except Bytes Settings :=
  match choose files searched explicitPath with
  | .error reason => .error reason
  | .ok none => .ok ⟨∅, [], profileOf profile, false⟩
  | .ok (some chosen) =>
      match files chosen with
      | .readable content =>
          match scan chosen (profileOf profile) 0 (Lines.split 10 content) (ascii "default", ∅) with
          | .error reason => .error reason
          | .ok (_, values) => .ok ⟨values, chosen, profileOf profile, true⟩
      | _ => .error (ascii "cannot read " ++ chosen)

/-- A line that is neither blank nor a comment. -/
def Speaks (line : Bytes) : Prop :=
  trim line ≠ [] ∧ (trim line).head? ≠ some 35 ∧ (trim line).head? ≠ some 59

/-- A line that begins like a header and does not end like one, or is no header and has no `=`. -/
def Malformed (line : Bytes) : Prop :=
  Speaks line ∧ ((trim line).head? = some 91 ∧ (trim line).getLast? ≠ some 93 ∨
    (trim line).head? ≠ some 91 ∧ 61 ∉ trim line)

instance (line : Bytes) : Decidable (Speaks line) := inferInstanceAs (Decidable (_ ∧ _))

instance (line : Bytes) : Decidable (Malformed line) := inferInstanceAs (Decidable (_ ∧ _))

/-- The section a header line opens, as it is written. -/
def headerOf (line : Bytes) : Option Bytes :=
  if Speaks line ∧ (trim line).head? = some 91 then
    some (trim ((trim line).drop 1).dropLast)
  else none

/-- A key line: key and value as they are written. -/
def keyLine (line : Bytes) : Option (Bytes × Bytes) :=
  if Speaks line ∧ (trim line).head? ≠ some 91 then
    some (trim ((trim line).takeWhile (· ≠ 61)), trim (((trim line).dropWhile (· ≠ 61)).drop 1))
  else none

def entries : Bytes → List Bytes → List (Bytes × Bytes × Bytes)
  | _, [] => []
  | inside, line :: lines =>
      match headerOf line with
      | some header => entries header lines
      | none =>
          match keyLine line with
          | some (key, value) => (inside, key, value) :: entries inside lines
          | none => entries inside lines

def lastValue (wanted : Bytes × Bytes × Bytes → Bool) (es : List (Bytes × Bytes × Bytes)) :
    Option Bytes := (es.filter wanted).getLast?.map fun e => e.2.2

/-- What the text says about a key in a profile, letter case aside. -/
def reading (content profile key : Bytes) : Bytes :=
  (lastValue (fun e => lowercase e.1 = lowercase (profileOf profile) ∧
      lowercase e.2.1 = lowercase key)
    (entries (ascii "default") (Lines.split 10 content))).getD []

private theorem lowercase_fin (n : Fin 256) :
    lowercase (lowercase [UInt8.ofFin n]) = lowercase [UInt8.ofFin n] := by
  revert n
  decide +kernel

theorem lowercase_lowercase (text : Bytes) : lowercase (lowercase text) = lowercase text := by
  induction text with
  | nil => rfl
  | cons c text ih =>
    have hc : lowercase (lowercase [c]) = lowercase [c] := lowercase_fin c.toFin
    simp only [lowercase, List.map_cons, List.map_nil, List.cons.injEq, and_true] at hc ih ⊢
    exact ⟨hc, ih⟩

theorem lowercase_eq_nil {text : Bytes} : lowercase text = [] ↔ text = [] := List.map_eq_nil_iff

theorem lowercase_profileOf {profile : Bytes} :
    lowercase (profileOf profile) = profileOf profile ↔ lowercase profile = profile := by
  unfold profileOf
  split_ifs with h
  · rw [h]
    decide
  · rfl

theorem lastValue_cons (wanted : Bytes × Bytes × Bytes → Bool) (e : Bytes × Bytes × Bytes)
    (es : List (Bytes × Bytes × Bytes)) : lastValue wanted (e :: es) =
      (lastValue wanted es).or (if wanted e then some e.2.2 else none) := by
  by_cases he : wanted e = true
  · rw [lastValue, List.filter_cons_of_pos he, List.getLast?_cons, lastValue, if_pos he]
    cases (es.filter wanted).getLast? with
    | none => rfl
    | some last => rfl
  · rw [lastValue, List.filter_cons_of_neg he, if_neg he, Option.or_none, lastValue]

/-- What a line can be: silent, malformed, a header or a key line. -/
theorem scanLine_cases (profile : Bytes) (st : Bytes × AList fun _ : Bytes => Bytes)
    (line : Bytes) :
    (¬ Malformed line ∧ headerOf line = none ∧ keyLine line = none ∧
      scanLine profile st line = .ok st) ∨
    (Malformed line ∧ ∃ reason, scanLine profile st line = .error reason) ∨
    (¬ Malformed line ∧ ∃ header, headerOf line = some header ∧
      scanLine profile st line = .ok (lowercase header, st.2)) ∨
    (¬ Malformed line ∧ headerOf line = none ∧ ∃ key value, keyLine line = some (key, value) ∧
      scanLine profile st line = .ok (st.1, if st.1 = profile ∧ key ≠ [] then
        st.2.insert (lowercase key) value else st.2)) := by
  have hsilent : ¬ Speaks line ↔
      (trim line = [] ∨ (trim line).head? = some 35 ∨ (trim line).head? = some 59) := by
    simp only [Speaks, ne_eq, not_and_or, not_not]
  by_cases hspeaks : Speaks line
  · have hloud := fun h => hsilent.mpr h hspeaks
    by_cases hheader : (trim line).head? = some 91
    · by_cases hclosed : (trim line).getLast? = some 93
      · right; right; left
        have hcut : ((trim line).drop 1).take ((trim line).length - 2) =
            ((trim line).drop 1).dropLast := by
          rw [List.dropLast_eq_take, List.length_drop]
          rfl
        refine ⟨by simp [Malformed, hheader, hclosed], _, if_pos ⟨hspeaks, hheader⟩, ?_⟩
        simp only [scanLine, if_neg hloud, if_pos hheader, hclosed, ne_eq, not_true_eq_false,
          ↓reduceIte, hcut]
      · right; left
        refine ⟨⟨hspeaks, .inl ⟨hheader, hclosed⟩⟩, ascii "unclosed section header", ?_⟩
        simp only [scanLine, if_neg hloud, if_pos hheader, ne_eq, hclosed, not_false_eq_true,
          ↓reduceIte]
    · by_cases hequals : 61 ∈ trim line
      · right; right; right
        refine ⟨by simp [Malformed, hheader, hequals], by simp [headerOf, hheader], _, _,
          if_pos ⟨hspeaks, hheader⟩, ?_⟩
        simp only [scanLine, if_neg hloud, if_neg hheader, hequals, not_true_eq_false, ↓reduceIte]
        by_cases hsection : st.1 = profile
        · simp only [hsection, ne_eq, not_true_eq_false, ↓reduceIte, lowercase_eq_nil, true_and,
            ite_not]
        · simp only [hsection, ne_eq, not_false_eq_true, ↓reduceIte, false_and]
      · right; left
        refine ⟨⟨hspeaks, .inr ⟨hheader, hequals⟩⟩, ascii "expected key = value", ?_⟩
        simp only [scanLine, if_neg hloud, if_neg hheader, hequals, not_false_eq_true, ↓reduceIte]
  · left
    refine ⟨fun h => hspeaks h.1, by simp [headerOf, hspeaks], by simp [keyLine, hspeaks], ?_⟩
    simp only [scanLine, if_pos (hsilent.mp hspeaks)]

theorem scan_error_iff {path profile : Bytes} {number : ℕ} {lines : List Bytes}
    {st : Bytes × AList fun _ : Bytes => Bytes} :
    (∃ reason, scan path profile number lines st = .error reason) ↔
      ∃ line ∈ lines, Malformed line := by
  induction lines generalizing number st with
  | nil => simp [scan]
  | cons line lines ih =>
    have hnext {next : Bytes × AList fun _ : Bytes => Bytes} (hwell : ¬ Malformed line)
        (hscan : scanLine profile st line = .ok next) :
        (∃ reason, scan path profile number (line :: lines) st = .error reason) ↔
          ∃ l ∈ line :: lines, Malformed l := by
      simp only [scan, hscan, List.exists_mem_cons_iff, hwell, false_or]
      exact ih
    rcases scanLine_cases profile st line with ⟨hwell, -, -, hscan⟩ | ⟨hbad, reason, hscan⟩ |
      ⟨hwell, header, -, hscan⟩ | ⟨hwell, -, key, value, -, hscan⟩
    · exact hnext hwell hscan
    · simp only [scan, hscan, List.exists_mem_cons_iff, hbad, true_or, iff_true]
      exact ⟨_, rfl⟩
    · exact hnext hwell hscan
    · exact hnext hwell hscan

/-- The values are those of the last lines in the section that is compared to the profile, where
only the section is folded to lower case. -/
theorem scan_lookup {path profile key : Bytes} (hkey : key ≠ []) {number : ℕ}
    {lines : List Bytes} {inside : Bytes} {values : AList fun _ : Bytes => Bytes}
    {st : Bytes × AList fun _ : Bytes => Bytes}
    (h : scan path profile number lines (lowercase inside, values) = .ok st) :
    st.2.lookup (lowercase key) =
      (lastValue (fun e => lowercase e.1 = profile ∧ lowercase e.2.1 = lowercase key)
        (entries inside lines)).or (values.lookup (lowercase key)) := by
  induction lines generalizing number inside values with
  | nil =>
    obtain rfl := Except.ok.inj h
    rfl
  | cons line lines ih =>
    rcases scanLine_cases profile (lowercase inside, values) line with ⟨-, hheader, hkeyLine, hscan⟩ |
      ⟨-, reason, hscan⟩ | ⟨-, header, hheader, hscan⟩ | ⟨-, hheader, k, v, hkeyLine, hscan⟩
    · simp only [scan, hscan] at h
      simp only [entries, hheader, hkeyLine]
      exact ih h
    · simp only [scan, hscan] at h
      cases h
    · simp only [scan, hscan] at h
      simp only [entries, hheader]
      exact ih h
    · simp only [scan, hscan] at h
      simp only [entries, hheader, hkeyLine]
      rw [ih h, lastValue_cons, Option.or_assoc]
      congr 1
      by_cases hwanted : lowercase inside = profile ∧ lowercase k = lowercase key
      · have hk : k ≠ [] := by
          rintro rfl
          exact hkey (lowercase_eq_nil.mp hwanted.2.symm)
        simp only [hwanted, and_self, hk, ne_eq, not_false_eq_true, ↓reduceIte, decide_true,
          AList.lookup_insert, Option.some_or]
      · simp only [hwanted, decide_false, Bool.false_eq_true, ↓reduceIte, Option.none_or]
        split_ifs with hset
        · have hne : lowercase key ≠ lowercase k := fun heq => hwanted ⟨hset.1, heq.symm⟩
          exact AList.lookup_insert_ne hne
        · rfl

section Load

variable {files : Bytes → FileState} {searched : List Bytes} {explicitPath profile path : Bytes}
  {content : Bytes}

theorem load_error_iff (hchoose : choose files searched explicitPath = .ok (some path))
    (hfile : files path = .readable content) :
    (∃ reason, load files searched explicitPath profile = .error reason) ↔
      ∃ line ∈ Lines.split 10 content, Malformed line := by
  simp only [load, hchoose, hfile]
  rw [← @scan_error_iff path (profileOf profile) 0 _ (ascii "default", ∅)]
  cases scan path (profileOf profile) 0 (Lines.split 10 content) (ascii "default", ∅) with
  | error reason => exact iff_of_true ⟨reason, rfl⟩ ⟨reason, rfl⟩
  | ok st => simp

/-- What is found under a key: the section has to equal the profile as it was given. -/
theorem get_of_load (hchoose : choose files searched explicitPath = .ok (some path))
    (hfile : files path = .readable content) {s : Settings}
    (hload : load files searched explicitPath profile = .ok s) {key : Bytes} (hkey : key ≠ []) :
    s.get key = (lastValue (fun e => lowercase e.1 = profileOf profile ∧
        lowercase e.2.1 = lowercase key)
      (entries (ascii "default") (Lines.split 10 content))).getD [] := by
  simp only [load, hchoose, hfile] at hload
  cases hscan : scan path (profileOf profile) 0 (Lines.split 10 content) (ascii "default", ∅) with
  | error reason =>
    rw [hscan] at hload
    cases hload
  | ok st =>
    rw [hscan] at hload
    obtain rfl := Except.ok.inj hload
    have hlookup := @scan_lookup path _ _ hkey _ _ (ascii "default") ∅ st hscan
    simp only [get, hlookup, AList.lookup_empty, Option.or_none]

theorem get_of_capital (hchoose : choose files searched explicitPath = .ok (some path))
    (hfile : files path = .readable content) {s : Settings}
    (hload : load files searched explicitPath profile = .ok s) (hcapital : lowercase profile ≠ profile)
    {key : Bytes} (hkey : key ≠ []) : s.get key = [] := by
  have hnone : ∀ text : Bytes, lowercase text ≠ profileOf profile := by
    intro text heq
    apply hcapital
    rw [← lowercase_profileOf, ← heq, lowercase_lowercase]
  rw [get_of_load hchoose hfile hload hkey]
  simp [lastValue, hnone]

/-- The settings mean what the file says exactly if the file is malformed, which is reported, or the
profile has no capital letter, or the file says nothing about it: section headers are folded to
lower case and the profile is not. -/
theorem load_reads_iff (hchoose : choose files searched explicitPath = .ok (some path))
    (hfile : files path = .readable content) (profile : Bytes) :
    (((∃ reason, load files searched explicitPath profile = .error reason) ↔
        ∃ line ∈ Lines.split 10 content, Malformed line) ∧
      ∀ s, load files searched explicitPath profile = .ok s → ∀ key, key ≠ [] →
        s.get key = reading content profile key) ↔
    (∃ line ∈ Lines.split 10 content, Malformed line) ∨ lowercase profile = profile ∨
      ∀ key, key ≠ [] → reading content profile key = [] := by
  have herror := @load_error_iff _ _ _ profile _ _ hchoose hfile
  constructor
  · rintro ⟨-, hreads⟩
    by_cases hbad : ∃ line ∈ Lines.split 10 content, Malformed line
    · exact .inl hbad
    by_cases hcapital : lowercase profile = profile
    · exact .inr (.inl hcapital)
    right; right
    cases hload : load files searched explicitPath profile with
    | error reason => exact absurd (herror.mp ⟨reason, hload⟩) hbad
    | ok s =>
      intro key hkey
      rw [← hreads s hload key hkey]
      exact get_of_capital hchoose hfile hload hcapital hkey
  · intro hcondition
    refine ⟨herror, fun s hload key hkey => ?_⟩
    rcases hcondition with hbad | hlower | hnothing
    · obtain ⟨reason, hreason⟩ := herror.mpr hbad
      rw [hreason] at hload
      cases hload
    · rw [get_of_load hchoose hfile hload hkey, reading, lowercase_profileOf.mpr hlower]
    · by_cases hlower : lowercase profile = profile
      · rw [get_of_load hchoose hfile hload hkey, reading, lowercase_profileOf.mpr hlower]
      · rw [hnothing key hkey, get_of_capital hchoose hfile hload hlower hkey]

def workFile : Bytes := Lines.join 10 [ascii "# pcs.conf", ascii " server = 10.0.0.4:9000",
  ascii "[ Work ]", ascii "Server = 10.0.0.5:9000"]

def workFiles (path : Bytes) : FileState :=
  if path = ascii "pcs.conf" then .readable workFile else .missing

theorem load_reads_work :
    ∃ s, load workFiles [] (ascii "pcs.conf") (ascii "work") = .ok s ∧
      s.get (ascii "SERVER") = reading workFile (ascii "work") (ascii "SERVER") := by
  have hreads := ((@load_reads_iff workFiles [] (ascii "pcs.conf") _ workFile rfl rfl
    (ascii "work")).mpr (.inr (.inl (by decide)))).2
  have hsome : (load workFiles [] (ascii "pcs.conf") (ascii "work")).toOption.isSome = true := by
    decide +kernel
  cases hload : load workFiles [] (ascii "pcs.conf") (ascii "work") with
  | error reason =>
    rw [hload] at hsome
    cases hsome
  | ok s => exact ⟨s, rfl, hreads s hload _ (by decide)⟩

/-- The same section under the name it has in the file is not found. -/
theorem load_misses_work :
    reading workFile (ascii "Work") (ascii "server") = ascii "10.0.0.5:9000" ∧
      ((load workFiles [] (ascii "pcs.conf") (ascii "Work")).toOption.map fun s =>
        s.get (ascii "server")) = some [] := by
  decide +kernel

end Load

end Settings

end PersonalCloud
