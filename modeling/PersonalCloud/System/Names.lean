import PersonalCloud.Client.Remote
import PersonalCloud.Server.WebUi

/-! Names on the wire: which stored names come through the command and listing lines unchanged,
and what the two front ends find under them. -/
namespace PersonalCloud

open Proto Channel Session Remote Store

/-- Each line the client builds is parsed back to the name, and so is each listing line the server
builds. -/
structure SurvivesWire (name : Bytes) : Prop where
  stat : splitN (statLine name) 2 = [kStat, name]
  getFile : splitN (getFileLine name) 2 = [kGetFile, name]
  delFile : splitN (delFileLine name) 2 = [kDelFile, name]
  putFile : ∀ size tag, size ≤ Config.kMaxTransferSize.toNat → tag ≠ [] → IsTag tag →
    splitN (putFileLine name tag size) 4 = [kPutFile, Decimal.text size, tag, name] ∧
      parseSize (Decimal.text size) Config.kMaxTransferSize = some (UInt64.ofNat size)
  list : ∀ size modified tag, splitN (listLine ⟨name, size, modified, tag⟩) 3 =
    [Decimal.text size, Decimal.signedText modified, name]

/-- The file the session acts on for a name the client sends. -/
def addressed (user name : Bytes) : Option Path :=
  match splitN (statLine name) 2 with
  | [_, parsed] => filePath user parsed
  | _ => none

/-- A file stored under the name by one front end is found, with its tag, by the other. -/
structure FoundAcross (name : Bytes) : Prop where
  by_web : ∀ (env env' : SessionEnv) (s : SessionState) (content tag rest input : Bytes),
    env.Sound → env'.Sound → s.loggedIn = true → isValidUsername s.user = true → IsTag tag →
    content.length ≤ Config.kMaxTransferSize.toNat →
    env'.disk = env.disk.run
      (handle env s (putFileLine name tag content.length) (content ++ rest)).steps →
    (WebUi.serveGetFile env' s.user name input).response = some (200, .content content) ∧
      fileInfo env'.disk s.user name = some (content.length, wireTag tag)
  by_session : ∀ (env env' : SessionEnv) (s : SessionState) (content query rest input : Bytes),
    env.Sound → env'.Sound → s.loggedIn = true → isValidUsername s.user = true →
    10 ∉ WebUi.queryTag query →
    env'.disk = env.disk.run
      (WebUi.servePutFile env s.user name query content.length (content ++ rest)).steps →
    (handle env' s (getFileLine name) input).reply =
        sendLine (sp kData (Decimal.text content.length)) ++ content ∧
      (handle env' s (statLine name) input).reply =
        sendLine (sp kMeta (sp (Decimal.text content.length) (wireTag (WebUi.queryTag query))))

variable {name : Bytes}

theorem ne_nil_of_isSafeName (h : isSafeName name = true) : name ≠ [] := by
  rintro rfl
  exact absurd h (by decide)

/-- A name that does not begin with a space is the whole last field of every line. -/
theorem survivesWire_of_head (hsafe : isSafeName name = true) (h : name.head? ≠ some 32) :
    SurvivesWire name := by
  have hwire : wireName name = name := wireName_of_head h
  have hne : wireName name ≠ [] := by
    rw [hwire]
    exact ne_nil_of_isSafeName hsafe
  have htwo {w : Bytes} (hw : IsWord w) : splitN (sp w name) 2 = [w, name] := by
    rw [splitN_two hw, if_neg hne, hwire]
  refine ⟨htwo (by decide), htwo (by decide), htwo (by decide), ?_, ?_⟩
  · intro size tag hsize htag htagWf
    have htagText : wireTag tag = tag := by simp [wireTag, htag]
    rw [splitN_putFileLine name htagWf, if_neg hne, hwire, htagText]
    exact ⟨rfl, parseSize_text hsize⟩
  · intro size modified tag
    rw [listLine, splitN_sp (isWord_text size) _ 1, splitN_two (isWord_signedText modified),
      if_neg hne, hwire]

theorem addressed_eq (user name : Bytes) : addressed user name = filePath user (wireName name) := by
  have hempty : filePath user [] = none := by
    have hsafe : isSafeName [] = false := by decide
    unfold filePath
    split
    · rfl
    · simp [hsafe]
  unfold addressed
  rw [statLine, splitN_two (by decide)]
  split_ifs with hn
  · rw [hn, hempty]
  · rfl

theorem wireName_length_le (name : Bytes) : (wireName name).length ≤ name.length :=
  Tokens.skip_length_le name

theorem head_of_survivesWire (h : SurvivesWire name) : name.head? ≠ some 32 := by
  intro hhead
  obtain ⟨rest, rfl⟩ : ∃ rest, name = 32 :: rest := by
    cases name with
    | nil => simp at hhead
    | cons c rest => exact ⟨rest, by simpa using hhead⟩
  have hstat := h.stat
  rw [statLine, splitN_two (by decide)] at hstat
  have hskip : wireName (32 :: rest) = wireName rest := Tokens.skip_cons_sep isSpace_space rest
  have hlen := wireName_length_le rest
  split_ifs at hstat with hn
  · simp at hstat
  · simp only [List.cons.injEq, and_true, true_and, hskip] at hstat
    rw [hstat, List.length_cons] at hlen
    omega

theorem filePath_of_safe {user : Bytes} (huser : isValidUsername user = true)
    (hsafe : isSafeName name = true) : filePath user name = some [kUsersDir, user, kFilesDir, name] :=
  filePath_eq_some.mpr ⟨huser, hsafe, rfl⟩

theorem storeBody_steps {env : SessionEnv} (henv : env.Sound) {s : SessionState} {final : Path}
    {content rest : Bytes} (after : List DiskStep) :
    storeBody env s final content.length after (content ++ rest) =
      ⟨sendLine kOk, true, [.write (tempPath env.random) ⟨content, env.now⟩,
        .rename (tempPath env.random) final] ++ after, rest, s⟩ := by
  simp [storeBody, receiveToFile, henv.receives, henv.renames, answer]

theorem foundAcross_of_head (hsafe : isSafeName name = true) (h : name.head? ≠ some 32) :
    FoundAcross name := by
  have hwire : wireName name = name := wireName_of_head h
  constructor
  · intro env env' s content tag rest input henv henv' hlogin huser htagWf hsize hdisk
    have hfinal := filePath_of_safe huser hsafe
    have hline : handle env s (putFileLine name tag content.length) (content ++ rest) =
        storeBody env s [kUsersDir, s.user, kFilesDir, name] content.length
          (writeTag env.now env.tag s.user (wireName name) (wireTag tag)) (content ++ rest) :=
      handle_putFileLine htagWf hlogin hsize (by rw [hwire]; exact hfinal)
    have hbreak : 10 ∉ wireTag tag := by
      unfold wireTag
      split_ifs
      · decide
      · exact fun hmem => (htagWf 10 hmem).2.1 rfl
    rw [hline, storeBody_steps henv, hwire, henv.tag] at hdisk
    rw [hdisk]
    constructor
    · simp only [WebUi.serveGetFile, hfinal, Option.bind_some, hdisk]
      rw [← uploadSteps, content_run_upload .done hfinal]
      simp [WebUi.respond, henv'.reads]
    · rw [← uploadSteps, fileInfo_run_upload .done hfinal, firstLine_append_break hbreak]
  · intro env env' s content query rest input henv henv' hlogin huser hbreak hdisk
    have hfinal := filePath_of_safe huser hsafe
    have hne : wireName name ≠ [] := by
      rw [hwire]
      exact ne_nil_of_isSafeName hsafe
    have hdisk' : env'.disk = env.disk.run (uploadSteps (tempPath env.random)
        [kUsersDir, s.user, kFilesDir, name] content env.now .done s.user name
        (WebUi.queryTag query)) := by
      rw [hdisk]
      simp [WebUi.servePutFile, hsafe, hfinal, henv.receives, henv.renames, henv.tag, uploadSteps]
    constructor
    · have hget : splitN (sp kGetFile name) 2 = [kGetFile, name] :=
        (survivesWire_of_head hsafe h).getFile
      rw [getFileLine, handle_getFile, hlogin, if_neg (by decide)]
      simp only [doGetFile, hget, hfinal, Option.bind_some, hdisk', content_run_upload .done hfinal,
        sendFile, henv'.reads, ↓reduceIte]
    · rw [statLine, handle_stat, hlogin, if_neg (by decide), ← statLine, doStat_statLine hne, hwire,
        hdisk', fileInfo_run_upload .done hfinal, firstLine_append_break hbreak]
      rfl

/-- A storable name comes through every line, and is found across the front ends, exactly if it
does not begin with a space; and names that do not, lead to different files. -/
theorem safeName_survives_iff (name : Bytes) (hsafe : isSafeName name = true) :
    (SurvivesWire name ∧ FoundAcross name ↔ name.head? ≠ some 32) ∧
    ∀ user user' name' p, name.head? ≠ some 32 → name'.head? ≠ some 32 →
      addressed user name = some p → addressed user' name' = some p →
        user = user' ∧ name = name' := by
  constructor
  · constructor
    · rintro ⟨h, -⟩
      exact head_of_survivesWire h
    · intro h
      exact ⟨survivesWire_of_head hsafe h, foundAcross_of_head hsafe h⟩
  · intro user user' name' p h h' hp hp'
    rw [addressed_eq, wireName_of_head h] at hp
    rw [addressed_eq, wireName_of_head h'] at hp'
    exact filePath_inj hp hp'

theorem safeName_survives_inner_spaces :
    SurvivesWire (ascii "a  b ") ∧ FoundAcross (ascii "a  b ") :=
  (safeName_survives_iff (ascii "a  b ") (by decide)).1.mpr (by decide)

/-- A name that begins with a space is parsed without it, and so leads to another name's file. -/
theorem leading_space_lost :
    isSafeName (ascii " a") = true ∧
    splitN (putFileLine (ascii " a") (ascii "0f") 1) 4 =
      [kPutFile, ascii "1", ascii "0f", ascii "a"] ∧
    addressed (ascii "ann") (ascii " a") = addressed (ascii "ann") (ascii "a") ∧
    (addressed (ascii "ann") (ascii "a")).isSome = true := by
  decide +kernel

end PersonalCloud
