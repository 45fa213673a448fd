import PersonalCloud.Client.Download
import PersonalCloud.System.Reports

/-! From an upload to a later download: what is sealed on one machine, by the client or by the page,
comes back on another, whatever else the server is asked to do in between. -/
namespace PersonalCloud

open Proto Channel Store Remote

section Sealed

variable (C : Crypto) (W : WebCrypto)

/-- A container of the plaintext, as either side writes it. -/
def IsSealed (passphrase plain content : Bytes) : Prop :=
  plain.length < Double.limit ∧ ∃ salt key blocks,
    Interop.Container C W passphrase plain salt key blocks ∧
      content = Interop.stream salt plain blocks

def tagOfPlain (passphrase plain : Bytes) : Bytes :=
  toHex (C.hmac (C.deriveDedupKey passphrase) plain)

/-- What is kept was sealed, and carries the tag of its plaintext or none. -/
def Held.Truthful (k : Held) : Prop :=
  ∃ passphrase plain, IsSealed C W passphrase plain k.content ∧
    (k.tag = [] ∨ k.tag = ascii "-" ∨ k.tag = tagOfPlain C passphrase plain)

/-- Nothing else has the tag of the plaintext. -/
def TellsPlain (passphrase plain : Bytes) : Prop :=
  ∀ passphrase' plain', tagOfPlain C passphrase' plain' = tagOfPlain C passphrase plain →
    passphrase' = passphrase ∧ plain' = plain

variable {C W} {passphrase plain content : Bytes}

theorem isSealed_of_sealFile (hsame : SameCrypto C W) (hlen : plain.length < Double.limit)
    {salt : Bytes} (hsalt : salt.length = Config.kSaltLen) {ivs : ℕ → Bytes}
    (hivs : ∀ k, (ivs k).length = Config.kIvLen)
    (h : (sealFile C (Interop.sealRun passphrase salt ivs hlen)).map SealedFile.stream =
        .ok content ∨ Page.sealFile W passphrase plain salt ivs = some content) :
    IsSealed C W passphrase plain content := by
  obtain ⟨key, blocks, hcontainer, hclient, hpage⟩ :=
    Interop.seal_streams hsame hlen passphrase hsalt hivs
  refine ⟨hlen, salt, key, blocks, hcontainer, ?_⟩
  rcases h with h | h
  · exact Except.ok.inj (h.symm.trans hclient)
  · exact Option.some.inj (h.symm.trans hpage)

theorem IsSealed.openFile (h : IsSealed C W passphrase plain content) {J : OpenStorage}
    (hJ : J.Sound) (dest : Option Bytes) :
    openFile C J content passphrase dest = (.ok (), some plain) := by
  obtain ⟨hlen, salt, key, blocks, hcontainer, rfl⟩ := h
  exact Interop.openFile_stream hcontainer hlen hJ dest

theorem IsSealed.openBlob (h : IsSealed C W passphrase plain content)
    (hshort : content.length < Double.limit) : Page.openBlob W passphrase content = .ok plain := by
  obtain ⟨hlen, salt, key, blocks, hcontainer, rfl⟩ := h
  rw [Interop.openBlob_stream hcontainer hlen, if_pos hshort]

end Sealed

namespace Service

open Machine

variable {C : Crypto} {W : WebCrypto} {s : Service} {m : Move} {user name : Bytes}

theorem vault_moveStep (h : Fair s m) :
    vaultOf (moveStep s m).disk = (vaultOf s.disk).step (asks s m.event) := by
  have henv : m.event.env.Sound := by
    cases m with
    | other e => exact h.1
    | call conn env c =>
      rw [event_call h.2.2.1 h.2.2.2.2.1]
      exact h.1
  rw [moveStep, step_disk]
  exact (serves_step s m.event henv).vault

variable (C W) in
/-- Whatever is kept under the name is truthful. -/
def Honest (user name : Bytes) (s : Service) : Prop :=
  ∀ k, (vaultOf s.disk).files user name = some k → k.Truthful C W

variable (C W) in
/-- Whatever the move puts under the name is truthful. -/
def PutsHonest (user name : Bytes) (s : Service) (m : Move) : Prop :=
  ∀ k, asks s m.event = .put user name k → k.Truthful C W

/-- The move neither replaces nor removes what is kept under the name. -/
def Leaves (user name : Bytes) (s : Service) (m : Move) : Prop :=
  ¬ (asks s m.event).Changes user name

theorem honest_moveStep (h : Honest C W user name s) (hfair : Fair s m)
    (hm : PutsHonest C W user name s m) : Honest C W user name (moveStep s m) := by
  intro k hk
  rw [vault_moveStep hfair] at hk
  by_cases hchanges : (asks s m.event).Changes user name
  · cases hask : asks s m.event with
    | put u n kept =>
      rw [hask] at hchanges hk
      obtain ⟨rfl, rfl⟩ : u = user ∧ n = name := hchanges
      rw [Vault.step, Vault.files_setFile, if_pos ⟨rfl, rfl⟩] at hk
      exact hm k (hask.trans (by rw [Option.some.inj hk]))
    | delete u n =>
      rw [hask] at hchanges hk
      obtain ⟨rfl, rfl⟩ : u = user ∧ n = name := hchanges
      rw [Vault.step, Vault.files_setFile, if_pos ⟨rfl, rfl⟩] at hk
      contradiction
    | get | stat | list | putChunk | getChunk | delChunk | other =>
      rw [hask] at hchanges
      exact hchanges.elim
  · rw [Vault.files_step_of_not_changes hchanges] at hk
    exact h k hk

theorem files_run_of_leaves {ms : List Move} (hfair : Along moveStep Fair s ms)
    (hleaves : Along moveStep (Leaves user name) s ms) :
    (vaultOf (run moveStep s ms).disk).files user name = (vaultOf s.disk).files user name := by
  refine inv_run (I := fun x => (vaultOf x.disk).files user name = (vaultOf s.disk).files user name)
    (C := fun x m => Fair x m ∧ Leaves user name x m) ?_ rfl (along_and hfair hleaves)
  rintro x m hx ⟨hfair, hleaves⟩
  rw [vault_moveStep hfair, Vault.files_step_of_not_changes hleaves, hx]

/-- Content is stored under the name, by whichever front end. -/
def Stores (user name content : Bytes) (s : Service) (m : Move) : Prop :=
  ∃ k, asks s m.event = .put user name k ∧ k.content = content

/-- A client is told that content with its tag is there already, and sends nothing. -/
def Skips (user name tag : Bytes) (s : Service) : Move → Prop
  | .call conn env (.stat n) => (s.sessions conn).user = user ∧ wireName n = name ∧ tag ≠ [] ∧
      ∃ size, (Call.stat n).receive (s.replyTo conn env (.stat n)) = .ok (.info size tag, [])
  | _ => False

def Holds (C : Crypto) (W : WebCrypto) (user name passphrase plain : Bytes) (s : Service) : Prop :=
  ∃ k, (vaultOf s.disk).files user name = some k ∧ IsSealed C W passphrase plain k.content

variable {passphrase plain content tag : Bytes}

theorem holds_of_stores (hfair : Fair s m) (hsealed : IsSealed C W passphrase plain content)
    (h : Stores user name content s m) : Holds C W user name passphrase plain (moveStep s m) := by
  obtain ⟨k, hask, rfl⟩ := h
  refine ⟨k, ?_, hsealed⟩
  rw [vault_moveStep hfair, hask, Vault.step, Vault.files_setFile, if_pos ⟨rfl, rfl⟩]

theorem holds_of_skips (htold : Told s m) (hhonest : Honest C W user name s)
    (htells : TellsPlain C passphrase plain)
    (h : Skips user name (tagOfPlain C passphrase plain) s m) :
    Holds C W user name passphrase plain s := by
  unfold Skips at h
  split at h
  swap
  · contradiction
  obtain ⟨rfl, rfl, htag, size, hreport⟩ := h
  obtain ⟨-, hanswer⟩ := htold
  obtain ⟨res, hres, hreceive⟩ := hanswer.resolve_left (by simp)
  have hsame := hreceive []
  rw [List.append_nil, hreport] at hsame
  have hinfo : Reported.info size (tagOfPlain C passphrase plain) = reportOf res :=
    (Prod.mk.inj (Except.ok.inj hsame)).1
  rw [Call.request, Vault.answers_stat] at hres
  cases hkept : (vaultOf s.disk).files _ _ with
  | none =>
    rw [hkept] at hres
    subst hres
    contradiction
  | some k =>
    rw [hkept] at hres
    subst hres
    obtain ⟨passphrase', plain', hsealed, hk⟩ := hhonest k hkept
    have hshown : tagOfPlain C passphrase plain = if k.tag = ascii "-" then [] else k.tag :=
      (Reported.info.inj hinfo).2
    split_ifs at hshown with hdash
    · exact absurd hshown htag
    · have hown : k.tag = tagOfPlain C passphrase' plain' :=
        (hk.resolve_left fun hempty => htag (hshown.trans hempty)).resolve_left hdash
      obtain ⟨rfl, rfl⟩ := htells passphrase' plain' (hown.symm.trans hshown.symm)
      exact ⟨k, hkept, hsealed⟩

theorem leaves_of_skips {user' name' : Bytes} (hfair : Fair s m) (h : Skips user name tag s m) :
    Leaves user' name' s m := by
  unfold Skips at h
  split at h
  swap
  · contradiction
  obtain ⟨-, -, hc, hp, hlen, -⟩ := hfair
  rw [Leaves, asks_call hc hlen hp]
  exact id

theorem getFile_of_receive {n incoming content more : Bytes}
    (h : (Call.getFile n).receive incoming = .ok (.body content, more)) :
    ∃ file, Remote.getFile .done incoming none = (.ok true, file) ∧ file.getD [] = content := by
  simp only [Call.receive, reportBody] at h
  split at h
  · cases h
  · cases h
  · next file heq =>
    exact ⟨file, heq, Reported.body.inj (Prod.mk.inj (Except.ok.inj h)).1⟩

theorem cmdDownload_of_holds {conn : ℕ} {env : SessionEnv} {n : Bytes}
    (htold : Told s (.call conn env (.getFile n)))
    (hholds : Holds C W (s.sessions conn).user (wireName n) passphrase plain s)
    (hn : isSafeName n = true) {e : DownloadEvent} (hinits : e.inits = true)
    (hreach : e.reachable = true) (hconn : e.connects = true) (hwrite : e.write = .done)
    {more : Bytes} (hincoming : e.incoming = s.replyTo conn env (.getFile n) ++ more)
    (hpass : e.passphrase = .ok passphrase) (hJ : e.storage.Sound) (H : Sha256)
    (pending dest : Option Bytes) : cmdDownload C H e n pending dest = (0, some plain) := by
  obtain ⟨k, hkept, hsealed⟩ := hholds
  obtain ⟨-, hanswer⟩ := htold
  obtain ⟨res, hres, hreceive⟩ := hanswer.resolve_left (by simp)
  rw [Call.request, Vault.answers_get, hkept, Option.elim_some] at hres
  subst hres
  obtain ⟨file, hfile, hcontent⟩ := getFile_of_receive (hreceive more)
  rw [cmdDownload, if_neg (by simp [hn]), if_neg (by simp [hinits]), if_neg (by simp [hreach]),
    if_neg (by simp [hconn]), hwrite, hincoming, hfile]
  simp only [hcontent, unsealTo, hpass, hsealed.openFile hJ dest]

/-- Whatever else the server is asked to do, a file whose upload went through comes back: while
nobody changes what is under its name, a client that is given the passphrase writes the plaintext,
and the page is sent a stream that it opens to the plaintext. -/
theorem upload_retrieved {s : Service} {before between : List Move} {up : Move}
    {user name passphrase plain content : Bytes}
    (hv : (vaultOf s.disk).Readable) (hhonest : Honest C W user name s)
    (hfair : Along moveStep Fair s (before ++ up :: between))
    (hputs : Along moveStep (PutsHonest C W user name) s before)
    (hsealed : IsSealed C W passphrase plain content)
    (hup : Stores user name content (run moveStep s before) up ∨
      TellsPlain C passphrase plain ∧
        Skips user name (tagOfPlain C passphrase plain) (run moveStep s before) up)
    (hleaves : Along moveStep (Leaves user name) (run moveStep s (before ++ [up])) between)
    (H : Sha256) (pending dest : Option Bytes) :
    let s' := run moveStep s (before ++ up :: between)
    (∀ conn env n (e : DownloadEvent) more, Fair s' (.call conn env (.getFile n)) →
      (s'.sessions conn).user = user → wireName n = name → e.inits = true → e.reachable = true →
      e.connects = true → e.write = .done → e.incoming = s'.replyTo conn env (.getFile n) ++ more →
      e.passphrase = .ok passphrase → e.storage.Sound →
        cmdDownload C H e n pending dest = (0, some plain)) ∧
    ∀ ev : Event, ev.env.Sound → asks s' ev = .get user name → ∃ stream,
      (s'.answer ev).Shows (.content stream) ∧
      (stream.length < Double.limit → Page.openBlob W passphrase stream = .ok plain) := by
  intro s'
  obtain ⟨hfairBefore, hfairUp, hfairBetween⟩ := along_append.mp hfair
  have hreadable : (vaultOf (run moveStep s before).disk).Readable :=
    inv_run (I := fun x : Service => (vaultOf x.disk).Readable) (fun _ _ => readable_moveStep) hv
      hfairBefore
  have hafter : run moveStep s (before ++ [up]) = moveStep (run moveStep s before) up :=
    Machine.run_append ..
  have hend : s' = run moveStep (moveStep (run moveStep s before) up) between :=
    Machine.run_append ..
  rw [hafter] at hleaves
  have hfirst : Holds C W user name passphrase plain (moveStep (run moveStep s before) up) := by
    rcases hup with hstores | ⟨htells, hskips⟩
    · exact holds_of_stores hfairUp hsealed hstores
    · have hhonest' : Honest C W user name (run moveStep s before) :=
        inv_run (C := fun x m => Fair x m ∧ PutsHonest C W user name x m)
          (fun _ _ hx hm => honest_moveStep hx hm.1 hm.2) hhonest (along_and hfairBefore hputs)
      obtain ⟨k, hkept, hsealed'⟩ :=
        holds_of_skips (told_of_fair hreadable hfairUp) hhonest' htells hskips
      refine ⟨k, ?_, hsealed'⟩
      rw [vault_moveStep hfairUp, Vault.files_step_of_not_changes, hkept]
      exact leaves_of_skips hfairUp hskips
  have hlast : Holds C W user name passphrase plain s' := by
    obtain ⟨k, hkept, hsealed'⟩ := hfirst
    refine ⟨k, ?_, hsealed'⟩
    rw [hend, files_run_of_leaves hfairBetween hleaves, hkept]
  have hreadable' : (vaultOf s'.disk).Readable :=
    inv_run (I := fun x : Service => (vaultOf x.disk).Readable) (fun _ _ => readable_moveStep) hv
      hfair
  constructor
  · rintro conn env n e more hget rfl rfl hinits hreach hconn hwrite hincoming hpass hJ
    exact cmdDownload_of_holds (told_of_fair hreadable' hget) hlast hget.2.2.1 hinits hreach hconn
      hwrite hincoming hpass hJ H pending dest
  · intro ev hsound hask
    obtain ⟨k, hkept, hsealed'⟩ := hlast
    obtain ⟨-, hanswer⟩ := serves_step s' ev hsound
    rw [hask] at hanswer
    obtain ⟨res, hres, hshows⟩ := hanswer.resolve_left (by simp)
    rw [Vault.answers_get, hkept, Option.elim_some] at hres
    subst hres
    exact ⟨k.content, hshows, hsealed'.openBlob⟩

/-- One connection uploads the stream of one byte; another one signs in and downloads it. -/
theorem upload_retrieved_oneByte :
    let put : Move := .call 0 openEnv (.putFile (ascii "a") oneByteStream [])
    let login (conn : ℕ) : Move := .other (.command conn openEnv (ascii "LOGIN ann pw") [])
    let s' := run moveStep (start ∅ 0) [login 0, put, login 1]
    cmdDownload Interop.sampleCrypto oneByteHash
      { oneByteDownload with incoming := s'.replyTo 1 openEnv (.getFile (ascii "a")) }
      (ascii "a") none none = (0, some (ascii "A")) := by
  intro put login s'
  have hsound : openEnv.Sound := ⟨rfl, rfl, rfl, rfl, rfl, rfl, rfl⟩
  have hnow : -2 ^ 63 ≤ openEnv.now ∧ openEnv.now < 2 ^ 63 := by decide
  have hsealed : IsSealed Interop.sampleCrypto (Interop.webCryptoOf Interop.sampleCrypto)
      (ascii "pw") (ascii "A") oneByteStream := by
    have hlen : (ascii "A").length < Double.limit := by decide
    have hseal : (sealFile Interop.sampleCrypto (Interop.sealRun (ascii "pw")
        (List.replicate 16 7) (fun _ => List.replicate 12 9) hlen)).map SealedFile.stream =
          .ok oneByteStream := by
      decide +kernel +revert
    exact isSealed_of_sealFile Interop.sampleCrypto_same hlen rfl (fun _ => rfl) (.inl hseal)
  have hhonest : Honest Interop.sampleCrypto (Interop.webCryptoOf Interop.sampleCrypto)
      (ascii "ann") (ascii "a") (start ∅ 0) := by
    intro k hk
    simp [start, vaultOf] at hk
  have hfair : Along moveStep Fair (start ∅ 0) ([login 0] ++ put :: [login 1]) := by
    refine ⟨⟨hsound, trivial⟩, ⟨hsound, hnow, ?_, ⟨?_, ?_⟩, ?_, by simp⟩, ⟨hsound, trivial⟩, trivial⟩
    · exact ⟨by decide, by simp [Session.IsTag]⟩
    · exact ⟨by decide +kernel, by decide +kernel, by decide +kernel⟩
    · simp [Session.IsTag]
    · decide +kernel
  have hget : Fair s' (.call 1 openEnv (.getFile (ascii "a"))) := by
    refine ⟨hsound, hnow, (by decide : isSafeName (ascii "a") = true), ⟨?_, by decide⟩, by decide,
      by simp⟩
    decide +kernel
  have hlogin : (start ∅ 0).asks (login 0).event = .other := by decide +kernel
  have hputs : Along moveStep (PutsHonest Interop.sampleCrypto
      (Interop.webCryptoOf Interop.sampleCrypto) (ascii "ann") (ascii "a")) (start ∅ 0) [login 0] :=
    ⟨fun k hk => Vault.Request.noConfusion (hlogin.symm.trans hk), trivial⟩
  exact (upload_retrieved Vault.readable_empty hhonest hfair hputs
    hsealed (.inl ⟨_, rfl, rfl⟩) ⟨id, trivial⟩ oneByteHash none none).1 1 openEnv (ascii "a")
    _ [] hget rfl rfl rfl rfl rfl rfl (List.append_nil _).symm rfl OpenStorage.buffered_sound

end Service

end PersonalCloud
