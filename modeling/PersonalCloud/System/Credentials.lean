import PersonalCloud.Client.Remote
import PersonalCloud.Server.Json
import PersonalCloud.Server.Users
import PersonalCloud.System.Access

/-! One account, signed in to over the own protocol and from the browser page. The name and the
password go through two encodings before they reach the same verification. -/
namespace PersonalCloud

open Proto Channel Http Passwd UserStore

namespace Credentials

/-- How the page's `JSON.stringify` writes one byte of a string. -/
def jsonStringByte (c : UInt8) : Bytes :=
  if c = 34 ∨ c = 92 then [92, c]
  else if c = 8 then [92, 98]
  else if c = 9 then [92, 116]
  else if c = 10 then [92, 110]
  else if c = 12 then [92, 102]
  else if c = 13 then [92, 114]
  else if c < 32 then [92, 117] ++ toHex [0, c]
  else [c]

def jsonString (text : Bytes) : Bytes := text.flatMap jsonStringByte

def loginBody (user password : Bytes) : Bytes :=
  jsonObject [(kUserField, jsonString user), (kPasswordField, jsonString password)]

def loginRequest (body : Bytes) : HttpRequest :=
  ⟨ascii "POST", ascii "/api/login", [], ∅, UInt64.ofNat body.length⟩

/-- The account the line signs in to on a new connection. -/
def lineLogin (env : SessionEnv) (user password : Bytes) : Option Bytes :=
  match readLine (sendLine (Remote.loginLine user password)) with
  | none => none
  | some (line, rest) =>
      let s := (Session.handle env {} line rest).session
      if s.loggedIn then some s.user else none

def webLogin (env : WebEnv) (entries : BrowserSessions) (user password : Bytes) : Option Bytes :=
  let body := loginBody user password
  match (WebUi.serveLogin env entries (loginRequest body) body).2.response with
  | some (_, .session _ user) => some user
  | _ => none

def serving (C : Crypto) (m : Verifiers) (env : WebEnv) : WebEnv :=
  { env with verify := UserStore.verify C m }

/-- A password without line breaks, short enough for one line and one body. -/
structure Sendable (user password : Bytes) : Prop where
  plain : IsPlain password
  line : (Remote.loginLine user password).length ≤ Config.kMaxLineLen
  body : (loginBody user password).length ≤ Config.kMaxLineLen

/-- A string with its control characters turned into the letters of their escapes. -/
def asLetters (text : Bytes) : Bytes := text.flatMap fun c =>
  if c = 8 then [98] else if c = 12 then [102]
  else if HasLongEscape c then 117 :: toHex [0, c] else [c]

theorem jsonStringByte_escapes : Escapes jsonStringByte := by
  intro c
  have hhex (x : UInt8) (hx : ((decide (48 ≤ x) && decide (x ≤ 57)) ||
      (decide (97 ≤ x) && decide (x ≤ 102))) = false) : x ∉ toHex [0, c] := toHex_not_mem hx
  unfold jsonStringByte
  split_ifs with hquote
  · exact .inr ⟨c, [], rfl, by simp, by simp⟩
  · exact .inr ⟨98, [], rfl, by simp, by simp⟩
  · exact .inr ⟨116, [], rfl, by simp, by simp⟩
  · exact .inr ⟨110, [], rfl, by simp, by simp⟩
  · exact .inr ⟨102, [], rfl, by simp, by simp⟩
  · exact .inr ⟨114, [], rfl, by simp, by simp⟩
  · exact .inr ⟨117, toHex [0, c], rfl, hhex 34 (by decide), hhex 92 (by decide)⟩
  · exact .inl ⟨rfl, not_or.mp hquote⟩

/-- The reader undoes three of the escapes and takes the others for letters. -/
theorem readBack_jsonStringByte (c : UInt8) : readBack jsonStringByte c =
    if c = 8 then [98] else if c = 12 then [102]
    else if HasLongEscape c then 117 :: toHex [0, c] else [c] := by
  by_cases hquote : c = 34 ∨ c = 92
  · rcases hquote with rfl | rfl
    · rfl
    · rfl
  by_cases hshort : c = 8 ∨ c = 9 ∨ c = 10 ∨ c = 12 ∨ c = 13
  · rcases hshort with rfl | rfl | rfl | rfl | rfl
    · rfl
    · rfl
    · rfl
    · rfl
    · rfl
  simp only [not_or] at hshort
  obtain ⟨h8, h9, h10, h12, h13⟩ := hshort
  rw [if_neg h8, if_neg h12]
  by_cases hctrl : c < 32
  · have hesc : jsonStringByte c = 92 :: 117 :: toHex [0, c] := by
      simp [jsonStringByte, hquote, h8, h9, h10, h12, h13, hctrl]
    rw [if_pos ⟨hctrl, h9, h10, h13⟩, readBack, hesc]
    rfl
  · have hself : jsonStringByte c = [c] := by
      simp [jsonStringByte, hquote, h8, h9, h10, h12, h13, hctrl]
    rw [if_neg fun hlong => hctrl hlong.1]
    simp [readBack, hself]

theorem heard_jsonString (text : Bytes) : heard jsonStringByte text = asLetters text :=
  List.flatMap_congr fun c _ => readBack_jsonStringByte c

/-- A string comes back as it is exactly if it has none of these control characters. -/
theorem asLetters_eq_iff (text : Bytes) :
    asLetters text = text ↔ ∀ c ∈ text, ¬ HasLongEscape c := by
  induction text with
  | nil => simp [asLetters]
  | cons c text ih =>
    have hcons : asLetters (c :: text) = (if c = 8 then [98] else if c = 12 then [102]
        else if HasLongEscape c then 117 :: toHex [0, c] else [c]) ++ asLetters text := rfl
    rw [hcons, List.forall_mem_cons, ← ih]
    by_cases hlong : HasLongEscape c
    · -- the first letter is no control character
      refine iff_of_false (fun h => ?_) fun h => h.1 hlong
      have hletter : c = 98 ∨ c = 102 ∨ c = 117 := by
        split_ifs at h
        · exact .inl (List.cons.inj h).1.symm
        · exact .inr (.inl (List.cons.inj h).1.symm)
        · exact .inr (.inr (List.cons.inj h).1.symm)
      rcases hletter with rfl | rfl | rfl <;> exact absurd hlong (by decide)
    · have h8 : c ≠ 8 := by
        rintro rfl
        exact hlong (by decide)
      have h12 : c ≠ 12 := by
        rintro rfl
        exact hlong (by decide)
      rw [if_neg h8, if_neg h12, if_neg hlong]
      simp [hlong]

section SignIn

variable {user password other : Bytes}

theorem plain_of_isValidUsername (h : isValidUsername user = true) :
    IsPlain user ∧ ∀ c ∈ user, ¬ HasLongEscape c := by
  simp only [isValidUsername, Bool.and_eq_true, List.all_eq_true] at h
  have hall := h.2
  refine ⟨fun c hc => ⟨?_, ?_⟩, fun c hc hlong => ?_⟩
  · rintro rfl
    exact absurd (hall 10 hc) (by decide)
  · rintro rfl
    exact absurd (hall 13 hc) (by decide)
  · have hchar := hall c hc
    have hctrl := UInt8.lt_iff_toNat_lt.mp hlong.1
    simp only [Bool.or_eq_true, Bool.and_eq_true, decide_eq_true_eq, beq_iff_eq,
      UInt8.le_iff_toNat_le, ← UInt8.toNat_inj, UInt8.reduceToNat] at hchar hctrl
    omega

theorem lineLogin_eq {env : SessionEnv} (hname : isValidUsername user = true)
    (hverify : ∀ w, env.verify user w = true ↔ w = password) (hensures : env.ensures = true)
    (hplain : IsPlain other) (hline : (Remote.loginLine user other).length ≤ Config.kMaxLineLen) :
    lineLogin env user other = if split other = [password] then some user else none := by
  have hsplit : split (Remote.loginLine user other) = kLogin :: user :: split other := by
    rw [Remote.loginLine, split_sp (by decide), split_sp (isWord_of_isValidUsername hname).1]
  have hread : readLine (sendLine (Remote.loginLine user other)) =
      some (Remote.loginLine user other, []) := by
    have hwhole : IsPlain (Remote.loginLine user other) :=
      isPlain_sp (by decide) (isPlain_sp (plain_of_isValidUsername hname).1 hplain)
    simpa [hline] using readLine_sendLine hwhole []
  simp only [lineLogin, hread, Session.handle_login _ _ _ _ hsplit]
  by_cases hone : ∃ w, split other = [w]
  · obtain ⟨w, hw⟩ := hone
    have hensured : Session.ensureAccount env user = true := by
      simp [Session.ensureAccount, hname, hensures]
    simp only [hw, Session.doLogin_session, hverify, hensured, and_true, List.cons.injEq]
    by_cases heq : w = password
    · simp [heq]
    · simp [heq]
  · have hlength : (kLogin :: user :: split other).length ≠ 3 := fun h =>
      hone (List.length_eq_one_iff.mp (by simpa using h))
    rw [Session.doLogin_session_malformed _ _ _ hlength, if_neg fun h => hone ⟨password, h⟩]
    rfl

theorem webLogin_eq {env : WebEnv} (entries : BrowserSessions) (hname : isValidUsername user = true)
    (hverify : ∀ w, env.verify user w = true ↔ w = password) (hensures : env.ensures = true)
    (hpassword : password.length ≤ Config.kMaxLineLen)
    (hbody : (loginBody user other).length ≤ Config.kMaxLineLen) :
    webLogin env entries user other = if asLetters other = password then some user else none := by
  have huser' : heard jsonStringByte user = user := by
    rw [heard_jsonString, asLetters_eq_iff]
    exact (plain_of_isValidUsername hname).2
  have hlong : ¬ Config.kMaxLineLen < user.length := by
    simp only [isValidUsername, Bool.and_eq_true, decide_eq_true_eq] at hname
    have hmax : 32 ≤ Config.kMaxLineLen := by decide
    omega
  obtain ⟨huser, hother⟩ := jsonField_pair jsonStringByte_escapes
    (show IsMemberName kUserField by decide) (show IsMemberName kPasswordField by decide)
    (by decide) user other
  rw [huser', if_neg hlong] at huser
  rw [heard_jsonString] at hother
  have hsize : (loginRequest (loginBody user other)).contentLength.toNat =
      (loginBody user other).length := by
    rw [loginRequest, UInt64.toNat_ofNat']
    have hmax : Config.kMaxLineLen < 2 ^ 64 := by decide
    omega
  have hfield : jsonField (loginBody user other) (ascii "user") = some user := huser
  have hfield' : jsonField (loginBody user other) (ascii "password") = _ := hother
  simp only [webLogin, WebUi.serveLogin, hsize, Nat.not_lt.mpr hbody, lt_irrefl, if_false,
    List.take_length, hfield, hfield']
  by_cases hlength : Config.kMaxLineLen < (asLetters other).length
  · have hne : asLetters other ≠ password := by
      rintro rfl
      exact absurd hlength (not_lt.mpr hpassword)
    rw [if_pos hlength, if_neg hne]
    rfl
  rw [if_neg hlength]
  by_cases heq : asLetters other = password
  · have hok : env.verify user password = true := (hverify _).mpr rfl
    rw [heq]
    simp [hok, hname, hensures, WebUi.respond]
  · have hno : env.verify user (asLetters other) = false := by
      simpa using mt (hverify _).mp heq
    simp [hno, heq, WebUi.respond]

theorem split_self_iff (h : password ≠ []) : split password = [password] ↔ 32 ∉ password := by
  refine ⟨fun hsplit => ?_, fun hspace => split_word (isWord_iff.mpr ⟨h, hspace⟩)⟩
  have hmem : password ∈ split password := by
    rw [hsplit]
    exact List.mem_singleton_self password
  exact (isWord_iff.mp (Tokens.isWord_of_mem_fields hmem).1).2

theorem split_eq_iff (h : IsWord password) : split other = [password] ↔
    ∃ i j, other = List.replicate i 32 ++ (password ++ List.replicate j 32) := by
  refine (Tokens.fields_eq_singleton_iff h).trans ⟨?_, ?_⟩
  · rintro ⟨pre, post, hpre, hpost, rfl⟩
    have hspaces {xs : Bytes} (hxs : ∀ x ∈ xs, isSpace x = true) :
        xs = List.replicate xs.length 32 :=
      List.eq_replicate_of_mem fun x hx => by simpa [isSpace] using hxs x hx
    exact ⟨pre.length, post.length, by rw [← hspaces hpre, ← hspaces hpost]⟩
  · rintro ⟨i, j, rfl⟩
    refine ⟨_, _, fun x hx => ?_, fun x hx => ?_, rfl⟩
    · rw [List.eq_of_mem_replicate hx]
      rfl
    · rw [List.eq_of_mem_replicate hx]
      rfl

end SignIn

/-- Both front ends take the password of a new account and refuse another one exactly if the
password has no space and no control character but the tab, and the other one is neither the
password with spaces around it nor turned into it by the letters of its escapes. -/
theorem logins_agree_iff (C : Crypto) (m m' : Verifiers) (salt user password other : Bytes)
    (hadd : UserStore.add m user password
      (hashPassword C salt password Config.kPasswordIterations) = .ok m')
    (hdistinct : ∀ w, stretch C w salt Config.kPasswordIterations =
      stretch C password salt Config.kPasswordIterations → w = password)
    (hpassword : Sendable user password) (hother : Sendable user other) (env : WebEnv)
    (hensures : env.ensures = true) (entries : BrowserSessions) :
    (lineLogin (serving C m' env).toSessionEnv user password = some user ∧
      webLogin (serving C m' env) entries user password = some user ∧
      lineLogin (serving C m' env).toSessionEnv user other = none ∧
      webLogin (serving C m' env) entries user other = none) ↔
    (32 ∉ password ∧ (∀ c ∈ password, ¬ HasLongEscape c) ∧
      (∀ i j, other ≠ List.replicate i 32 ++ (password ++ List.replicate j 32)) ∧
      asLetters other ≠ password) := by
  obtain ⟨hname, hlength, -⟩ := add_eq_ok hadd
  have hverify (w : Bytes) : (serving C m' env).verify user w = true ↔ w = password := by
    refine (verify_add (by decide) (by decide) hadd w).trans ⟨hdistinct w, ?_⟩
    rintro rfl
    rfl
  have hshort : password.length ≤ Config.kMaxLineLen := by
    have hline := hpassword.line
    simp only [Remote.loginLine, sp, List.length_append, List.length_cons] at hline
    omega
  have hline {w : Bytes} (hw : Sendable user w) := @lineLogin_eq user password w
    (serving C m' env).toSessionEnv hname hverify hensures hw.plain hw.line
  have hweb {w : Bytes} (hw : Sendable user w) := @webLogin_eq user password w
    (serving C m' env) entries hname hverify hensures hshort hw.body
  have hnonempty : password ≠ [] := by
    rintro rfl
    exact absurd hlength (by decide)
  have haccept {P : Prop} [Decidable P] : (if P then some user else none) = some user ↔ P := by
    simp
  have hrefuse {P : Prop} [Decidable P] : (if P then some user else none) = none ↔ ¬ P := by
    simp
  rw [hline hpassword, hline hother, hweb hpassword, hweb hother, haccept, haccept, hrefuse,
    hrefuse, split_self_iff hnonempty, asLetters_eq_iff]
  refine and_congr_right fun hspace => and_congr_right fun _ => and_congr_left fun _ => ?_
  rw [split_eq_iff (isWord_iff.mpr ⟨hnonempty, hspace⟩)]
  simp only [not_exists]

/-- A derivation that tells one password from all others. -/
def telling (password : Bytes) : Crypto where
  pbkdf2 other _ _ := some (List.replicate 32 (if other = password then 1 else 0))
  gcmEncrypt _ _ _ _ := none
  gcmDecrypt _ _ _ _ _ := none
  hmac _ _ := []

theorem telling_distinct (password salt : Bytes) (iterations : UInt32) (w : Bytes)
    (h : stretch (telling password) w salt iterations =
      stretch (telling password) password salt iterations) : w = password := by
  by_contra hne
  simp [stretch, Crypto.deriveKey, telling, hne, List.replicate_succ] at h

def sampleSalt : Bytes := List.replicate 16 0

def withAnn (password : Bytes) : Verifiers :=
  (∅ : Verifiers).insert (ascii "ann")
    (hashPassword (telling password) sampleSalt password Config.kPasswordIterations)

def sampleEnv : WebEnv := { calmEnv with clock := 0, issued := 0, fresh := ascii "t" }

theorem logins_agree_plain :
    let p := ascii "pass-word"
    let env := serving (telling p) (withAnn p) sampleEnv
    lineLogin env.toSessionEnv (ascii "ann") p = some (ascii "ann") ∧
      webLogin env (fun _ => none) (ascii "ann") p = some (ascii "ann") ∧
      lineLogin env.toSessionEnv (ascii "ann") (ascii "pass-wort") = none ∧
      webLogin env (fun _ => none) (ascii "ann") (ascii "pass-wort") = none := by
  refine (logins_agree_iff (telling (ascii "pass-word")) ∅ _ sampleSalt (ascii "ann") _ _ rfl
    (telling_distinct _ _ _) ⟨by decide, by decide, by decide⟩ ⟨by decide, by decide, by decide⟩
    sampleEnv rfl _).mpr ⟨by decide, by decide, fun i j h => ?_, by decide⟩
  have hlength := congrArg List.length h
  simp only [List.length_append, List.length_replicate] at hlength
  change 9 = i + (9 + j) at hlength
  obtain ⟨rfl, rfl⟩ : i = 0 ∧ j = 0 := by omega
  exact absurd h (by decide)

/-- A password with a space opens the account from the page only. -/
theorem logins_differ :
    let p := ascii "pass word"
    let env := serving (telling p) (withAnn p) sampleEnv
    UserStore.add ∅ (ascii "ann") p
        (hashPassword (telling p) sampleSalt p Config.kPasswordIterations) = .ok (withAnn p) ∧
      Sendable (ascii "ann") p ∧
      lineLogin env.toSessionEnv (ascii "ann") p = none ∧
      webLogin env (fun _ => none) (ascii "ann") p = some (ascii "ann") := by
  exact ⟨rfl, ⟨by decide, by decide, by decide⟩, by decide +kernel, by decide +kernel⟩

/-- A verifier is read back and accepts its own password only, exactly up to the greatest count the
parser reads. No function into 32 bytes is injective on all byte strings, so the passwords come from
some set on which the derivation is. -/
theorem verifier_checked_iff (C : Crypto) (passwords : Set Bytes) (salt : Bytes) (count : UInt32)
    (hsalt : salt.length = kSaltLen) (hcount : count ≠ 0)
    (htotal : ∀ p, ∃ hash, C.pbkdf2 p (kLabel ++ salt) count = some hash ∧
      hash.length = kHashLen)
    (hinjective : passwords.InjOn fun p => C.pbkdf2 p (kLabel ++ salt) count)
    (password : Bytes) (hpassword : password ∈ passwords) :
    ((∀ q ∈ passwords, verifyPassword C q (hashPassword C salt password count) = true ↔
        q = password) ∧
      parse (hashPassword C salt password count) =
        some ⟨count, salt, stretch C password salt count⟩) ↔ count.toNat ≤ 100000000 := by
  have hstretch (p : Bytes) : C.pbkdf2 p (kLabel ++ salt) count = some (stretch C p salt count) ∧
      (stretch C p salt count).length = kHashLen := by
    obtain ⟨hash, hsome, hlen⟩ := htotal p
    simp [stretch, Crypto.deriveKey, hsome, hlen]
  have hne := hashPassword_ne_nil hcount hsalt (hstretch password).2
  constructor
  · rintro ⟨-, hparse⟩
    by_contra hgt
    rw [parse_hashPassword_eq_none (not_le.mp hgt) hne] at hparse
    cases hparse
  · intro hle
    refine ⟨fun q hq => ?_, parse_hashPassword hcount hle hne⟩
    rw [verifyPassword_hashPassword hcount hle hne]
    constructor
    · intro heq
      apply hinjective hq hpassword
      simp only [(hstretch q).1, (hstretch password).1, heq]
    · rintro rfl
      rfl

theorem verifier_checked_thousand :
    (∀ q ∈ ({ascii "a", ascii "b"} : Set Bytes), verifyPassword (telling (ascii "a")) q
        (hashPassword (telling (ascii "a")) sampleSalt (ascii "a") 1000) = true ↔
      q = ascii "a") ∧
    parse (hashPassword (telling (ascii "a")) sampleSalt (ascii "a") 1000) =
      some ⟨1000, sampleSalt, stretch (telling (ascii "a")) (ascii "a") sampleSalt 1000⟩ := by
  refine (verifier_checked_iff (telling (ascii "a")) {ascii "a", ascii "b"} sampleSalt 1000
    rfl (by decide) (fun p => ⟨_, rfl, rfl⟩) ?_ (ascii "a") (by simp)).mpr (by decide)
  intro p hp q hq heq
  rcases hp with rfl | rfl <;> rcases hq with rfl | rfl
  · rfl
  · exact absurd heq (by decide)
  · exact absurd heq (by decide)
  · rfl

/-- The verifier of a count above the cap refuses its own password. -/
theorem verifier_unchecked :
    let v := hashPassword (telling (ascii "a")) sampleSalt (ascii "a") 100000001
    v ≠ [] ∧ verifyPassword (telling (ascii "a")) (ascii "a") v = false ∧ (parse v).isNone := by
  decide +kernel

end Credentials

end PersonalCloud
