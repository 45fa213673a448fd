import PersonalCloud.Core.Passwd
import PersonalCloud.Library.Assoc
import PersonalCloud.Library.Lines
import PersonalCloud.Server.Store

/-! The account list: the text file, the verifiers in memory, and the changes to them. Error texts
that end in a name or a path are given without it. -/
namespace PersonalCloud

open Proto

abbrev Verifiers := AList fun _ : Bytes => Bytes

structure Day where
  text : Bytes
  isWord : IsWord text
  no_break : 10 ∉ text

namespace UserStore

def kMagic : Bytes := ascii "pcs-users"
def kVersion : ℕ := 1
def kUser : Bytes := ascii "user"

/-- One line behind the first. Lines of another kind are passed over. -/
def readUser (m : Verifiers) (line : Bytes) : Verifiers :=
  match split line with
  | word :: name :: verifier :: _ =>
      if word = kUser ∧ isValidUsername name = true then m.insert name verifier else m
  | _ => m

/-- No file yet is not an error, just no accounts. -/
def load : Option Bytes → Except String Verifiers
  | none => .ok ∅
  | some text =>
      match Lines.split 10 text with
      | [] => .ok ∅
      | first :: lines =>
          match split first with
          | [magic, version] =>
              if magic ≠ kMagic then .error "not a user file"
              else if version ≠ Decimal.text kVersion then .error "unsupported user file version"
              else .ok (lines.foldl readUser ∅)
          | _ => .error "not a user file"

/-- The list in memory after a load. It is emptied first, and stays empty after an error. -/
def listOf (text : Option Bytes) : Verifiers := (load text).toOption.getD ∅

def userLine (today : Day) (e : Sigma fun _ : Bytes => Bytes) : Bytes :=
  sp kUser (sp e.1 (sp e.2 today.text))

def sorted (m : Verifiers) : List (Sigma fun _ : Bytes => Bytes) :=
  m.entries.insertionSort fun a b => Store.nameLe a.1 b.1 = true

def saveLines (m : Verifiers) (today : Day) : List Bytes :=
  sp kMagic (Decimal.text kVersion) :: (sorted m).map (userLine today)

def saveText (m : Verifiers) (today : Day) : Bytes := Lines.join 10 (saveLines m today)

/-- The list that `add` saves; `verifier` is the new one. -/
def add (m : Verifiers) (name password verifier : Bytes) : Except String Verifiers :=
  if isValidUsername name = false then
    .error "invalid username (lowercase letters, digits, - and _, starting with a letter)"
  else if password.length < 8 then .error "password must be at least 8 characters"
  else if (m.lookup name).isSome then .error "user already exists"
  else if verifier = [] then .error "could not hash the password"
  else .ok (m.insert name verifier)

/-- A failed derivation leaves the error text empty. -/
def setPassword (m : Verifiers) (name password verifier : Bytes) : Except String Verifiers :=
  if password.length < 8 then .error "password must be at least 8 characters"
  else if (m.lookup name).isNone then .error "no such user"
  else if verifier = [] then .error ""
  else .ok (m.insert name verifier)

def remove (m : Verifiers) (name : Bytes) : Except String Verifiers :=
  if (m.lookup name).isNone then .error "no such user" else .ok (m.erase name)

/-- For an unknown name a decoy is checked as well, for the time it takes. -/
def verify (C : Crypto) (m : Verifiers) (name password : Bytes) : Bool :=
  match m.lookup name with
  | none => false
  | some verifier => if verifier = [] then false else Passwd.verifyPassword C password verifier

/-- What the lines of the file can carry. -/
def WellFormed (m : Verifiers) : Prop :=
  ∀ name verifier, m.lookup name = some verifier →
    isValidUsername name = true ∧ IsWord verifier ∧ 10 ∉ verifier

variable {m m' : Verifiers} {name verifier : Bytes}

theorem add_eq_ok {password : Bytes} (h : add m name password verifier = .ok m') :
    isValidUsername name = true ∧ 8 ≤ password.length ∧ m.lookup name = none ∧ verifier ≠ [] ∧
      m' = m.insert name verifier := by
  unfold add at h
  split_ifs at h with hname hlength hthere hempty
  exact ⟨by simpa using hname, not_lt.mp hlength, by simpa using hthere, hempty,
    (Except.ok.inj h).symm⟩

theorem setPassword_eq_ok {password : Bytes} (h : setPassword m name password verifier = .ok m') :
    8 ≤ password.length ∧ (∃ previous, m.lookup name = some previous) ∧ verifier ≠ [] ∧
      m' = m.insert name verifier := by
  unfold setPassword at h
  split_ifs at h with hlength hthere hempty
  have hsome : (m.lookup name).isSome = true := by simpa [Option.isSome_iff_ne_none] using hthere
  exact ⟨not_lt.mp hlength, Option.isSome_iff_exists.mp hsome, hempty, (Except.ok.inj h).symm⟩

theorem remove_eq_ok (h : remove m name = .ok m') :
    (∃ previous, m.lookup name = some previous) ∧ m' = m.erase name := by
  unfold remove at h
  split_ifs at h with hthere
  have hsome : (m.lookup name).isSome = true := by simpa [Option.isSome_iff_ne_none] using hthere
  exact ⟨Option.isSome_iff_exists.mp hsome, (Except.ok.inj h).symm⟩

/-- What a new account is opened by. -/
theorem verify_add {C : Crypto} {salt password : Bytes} {iterations : UInt32}
    (hpos : iterations ≠ 0) (hle : iterations.toNat ≤ 100000000)
    (h : add m name password (Passwd.hashPassword C salt password iterations) = .ok m')
    (other : Bytes) : verify C m' name other = true ↔
      Passwd.stretch C other salt iterations = Passwd.stretch C password salt iterations := by
  obtain ⟨-, -, -, hempty, rfl⟩ := add_eq_ok h
  simp only [verify, AList.lookup_insert, if_neg hempty]
  exact Passwd.verifyPassword_hashPassword hpos hle hempty other

theorem wellFormed_empty : WellFormed ∅ := fun name verifier h => by simp at h

theorem WellFormed.insert (h : WellFormed m) (hname : isValidUsername name = true)
    (hword : IsWord verifier) (hbreak : 10 ∉ verifier) : WellFormed (m.insert name verifier) := by
  intro n v hv
  by_cases hn : n = name
  · subst hn
    rw [AList.lookup_insert, Option.some.injEq] at hv
    exact hv ▸ ⟨hname, hword, hbreak⟩
  · rw [AList.lookup_insert_ne hn] at hv
    exact h n v hv

theorem WellFormed.erase (h : WellFormed m) (name : Bytes) : WellFormed (m.erase name) := by
  intro n v hv
  by_cases hn : n = name
  · subst hn
    simp at hv
  · rw [AList.lookup_erase_ne hn] at hv
    exact h n v hv

theorem WellFormed.congr (h : WellFormed m) (hm : ∀ n, m'.lookup n = m.lookup n) :
    WellFormed m' := fun n v hv => h n v ((hm n).symm.trans hv)

theorem wellFormed_readUser (h : WellFormed m) {line : Bytes} (hline : 10 ∉ line) :
    WellFormed (readUser m line) := by
  unfold readUser
  split
  · next word name verifier rest hfields =>
    split_ifs with huser
    · have hmem : verifier ∈ split line := by simp [hfields]
      obtain ⟨hword, hin⟩ := Tokens.isWord_of_mem_fields hmem
      exact h.insert huser.2 hword fun hbreak => hline (hin 10 hbreak)
    · exact h
  · exact h

theorem wellFormed_of_load {text : Option Bytes} (h : load text = .ok m) : WellFormed m := by
  have hlines {lines : List Bytes} (hl : ∀ l ∈ lines, 10 ∉ l) {m : Verifiers} (hm : WellFormed m) :
      WellFormed (lines.foldl readUser m) := by
    induction lines generalizing m with
    | nil => exact hm
    | cons l ls ih =>
      exact ih (fun x hx => hl x (List.mem_cons_of_mem _ hx))
        (wellFormed_readUser hm (hl l (by simp)))
  cases text with
  | none => exact Except.ok.inj h ▸ wellFormed_empty
  | some text =>
    simp only [load] at h
    split at h
    · exact Except.ok.inj h ▸ wellFormed_empty
    · next first lines hsplit =>
      split at h
      · split_ifs at h
        rw [← Except.ok.inj h]
        refine hlines (fun l hl => ?_) wellFormed_empty
        exact Lines.not_mem_of_mem_split (hsplit ▸ List.mem_cons_of_mem _ hl)
      · simp at h

theorem wellFormed_listOf (text : Option Bytes) : WellFormed (listOf text) := by
  unfold listOf
  cases h : load text with
  | error e => exact wellFormed_empty
  | ok m => exact wellFormed_of_load h

theorem isWord_of_isValidUsername (h : isValidUsername name = true) :
    IsWord name ∧ 10 ∉ name := by
  simp only [isValidUsername, Bool.and_eq_true, Bool.not_eq_true', List.all_eq_true] at h
  obtain ⟨⟨⟨hne, -⟩, -⟩, hall⟩ := h
  have hspace : (32 : UInt8) ∉ name := fun hc => absurd (hall 32 hc) (by decide)
  exact ⟨isWord_iff.mpr ⟨by simpa using hne, hspace⟩, fun hc => absurd (hall 10 hc) (by decide)⟩

theorem mem_sp {a b : Bytes} {c : UInt8} (hc : c ≠ 32) : c ∈ sp a b ↔ c ∈ a ∨ c ∈ b := by
  simp [sp, hc]

theorem readUser_userLine (today : Day) (m : Verifiers) (hname : isValidUsername name = true)
    (hword : IsWord verifier) :
    readUser m (userLine today ⟨name, verifier⟩) = m.insert name verifier := by
  have hsplit : split (userLine today ⟨name, verifier⟩) = [kUser, name, verifier, today.text] := by
    rw [userLine, split_sp (by decide), split_sp (isWord_of_isValidUsername hname).1,
      split_sp hword, split_word today.isWord]
  rw [readUser, hsplit]
  simp [hname]

theorem not_mem_saveLines (h : WellFormed m) (today : Day) : ∀ l ∈ saveLines m today, 10 ∉ l := by
  intro l hl
  rcases List.mem_cons.mp hl with rfl | hl
  · decide
  · obtain ⟨e, he, rfl⟩ := List.mem_map.mp hl
    obtain ⟨hname, -, hbreak⟩ := h e.1 e.2 (Assoc.lookup_of_mem_sort he)
    have huser : (10 : UInt8) ∉ kUser := by decide
    simp only [userLine, mem_sp (show (10 : UInt8) ≠ 32 by decide), not_or]
    exact ⟨huser, (isWord_of_isValidUsername hname).2, hbreak, today.no_break⟩

theorem load_saveText (h : WellFormed m) (today : Day) :
    ∃ m', load (some (saveText m today)) = .ok m' ∧ ∀ n, m'.lookup n = m.lookup n := by
  have hsplit : Lines.split 10 (saveText m today) = saveLines m today :=
    Lines.split_join (not_mem_saveLines h today)
  have hhead : split (sp kMagic (Decimal.text kVersion)) = [kMagic, Decimal.text kVersion] := by
    rw [split_sp (by decide), split_word (isWord_text _)]
  refine ⟨(sorted m).foldl (fun m e => m.insert e.1 e.2) ∅, ?_, fun n => ?_⟩
  · simp only [load, hsplit, saveLines, hhead, ne_eq, not_true_eq_false, ↓reduceIte, List.foldl_map]
    refine congrArg Except.ok (List.foldl_ext _ _ _ fun m' e he => ?_)
    obtain ⟨hname, hword, -⟩ := h e.1 e.2 (Assoc.lookup_of_mem_sort he)
    exact readUser_userLine today m' hname hword
  · have hperm : (sorted m).Perm m.entries := List.perm_insertionSort _ _
    have hkeys : (sorted m).NodupKeys := (List.perm_nodupKeys hperm).mpr m.nodupKeys
    rw [Assoc.lookup_foldl_insert hkeys, AList.lookup_empty, Option.or_none,
      List.perm_dlookup n hkeys hperm]
    rfl

end UserStore

end PersonalCloud
