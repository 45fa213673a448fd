import PersonalCloud.Core.Protocol
import PersonalCloud.Library.Lines

/-! The record of a file that waits for its server: which peers hold its shards. It is kept as
lines of text. Error texts that end in a path or a field are given without it. -/
namespace PersonalCloud

structure ShardRef where
  /-- 0 and 1 for the data shards, 2 and 3 for the parity shards. -/
  index : ℕ := 0
  /-- The SHA-256 of the shard, also its name on the peer. -/
  chunkId : Bytes := []
  peer : Bytes := []
  deriving DecidableEq

def ShardRef.what (s : ShardRef) : ℕ × Bytes := (s.index, s.chunkId)

structure Manifest where
  server : Bytes := []
  name : Bytes := []
  streamSize : UInt64 := 0
  shardSize : UInt64 := 0
  dedupTag : Bytes := []
  dataShards : ℕ := 0
  parityShards : ℕ := 0
  shards : List ShardRef := []
  deriving DecidableEq

namespace Manifest

open Proto

def kMagic : Bytes := ascii "pcs-manifest"
def kVersion : ℕ := 2

/-- The largest size a manifest may state. -/
def kMaxSize : UInt64 := 0xFFFFFFFFFFFFFFFF / 2

def shardLine (s : ShardRef) : Bytes :=
  sp (ascii "shard") (sp (Decimal.text s.index) (sp s.chunkId s.peer))

def lines (m : Manifest) : List Bytes :=
  [sp kMagic (Decimal.text kVersion),
    sp (ascii "server") m.server,
    sp (ascii "name") m.name,
    sp (ascii "stream-size") (Decimal.text m.streamSize.toNat),
    sp (ascii "shard-size") (Decimal.text m.shardSize.toNat),
    sp (ascii "dedup-tag") m.dedupTag,
    sp (ascii "layout") (sp (Decimal.text m.dataShards) (Decimal.text m.parityShards))] ++
  m.shards.map shardLine

def text (m : Manifest) : Bytes := Lines.join 10 m.lines

def parseInt (text : Bytes) (low high : ℕ) : Option ℕ :=
  match parseSize text (UInt64.ofNat high) with
  | none => none
  | some value => if value.toNat < low then none else some value.toNat

/-- One line below the first; unknown keys are ignored so a newer writer stays readable. -/
def readLine (m : Manifest) (line : Bytes) : Except String Manifest :=
  let f := split line
  match f with
  | [] => .ok m
  | key :: _ =>
      if key = ascii "server" ∧ f.length = 2 then .ok { m with server := f.getD 1 [] }
      else if key = ascii "name" then
        -- the name takes the rest of the line, since it may contain spaces
        match splitN line 2 with
        | [_, name] => .ok { m with name := name }
        | _ => .ok m
      else if key = ascii "stream-size" ∧ f.length = 2 then
        match parseSize (f.getD 1 []) kMaxSize with
        | none => .error "bad stream-size"
        | some n => .ok { m with streamSize := n }
      else if key = ascii "shard-size" ∧ f.length = 2 then
        match parseSize (f.getD 1 []) kMaxSize with
        | none => .error "bad shard-size"
        | some n => .ok { m with shardSize := n }
      else if key = ascii "dedup-tag" ∧ f.length = 2 then .ok { m with dedupTag := f.getD 1 [] }
      else if key = ascii "layout" ∧ f.length = 3 then
        match parseInt (f.getD 1 []) 1 16, parseInt (f.getD 2 []) 0 16 with
        | some data, some parity => .ok { m with dataShards := data, parityShards := parity }
        | _, _ => .error "bad layout line"
      else if key = ascii "shard" ∧ f.length = 4 then
        match parseInt (f.getD 1 []) 0 3 with
        | none => .error "shard index out of range"
        | some index =>
            if isSafeChunkId (f.getD 2 []) = false then .error "malformed chunk id in manifest"
            else .ok { m with shards := m.shards ++ [⟨index, f.getD 2 [], f.getD 3 []⟩] }
      else .ok m

def read (content : Bytes) : Except String Manifest :=
  match Lines.split 10 content with
  | [] => .error "manifest is empty"
  | first :: rest =>
      match split first with
      | [magic, version] =>
          if magic ≠ kMagic then .error "not a manifest file"
          else if version ≠ Decimal.text kVersion then .error "unsupported manifest version"
          else do
            let parsed ← rest.foldlM readLine {}
            if parsed.name.isEmpty ∨ isSafeName parsed.name = false then
              .error "manifest has no usable file name"
            else if parsed.server.isEmpty then .error "manifest has no server address"
            else .ok parsed
      | _ => .error "not a manifest file"

def peekServer (content : Bytes) : Option Bytes :=
  (Lines.split 10 content).tail.findSome? fun line =>
    match split line with
    | [key, server] => if key = ascii "server" then some server else none
    | _ => none

/-- A field of a line: one word, without a line break. -/
structure IsField (w : Bytes) : Prop extends IsWord w where
  noBreak : 10 ∉ w

/-- What an upload writes into a manifest. -/
structure Writable (m : Manifest) : Prop where
  server : IsField m.server
  name : 10 ∉ m.name
  streamSize : m.streamSize ≤ kMaxSize
  shardSize : m.shardSize ≤ kMaxSize
  dedupTag : m.dedupTag = [] ∨ IsField m.dedupTag
  dataShards : 1 ≤ m.dataShards ∧ m.dataShards ≤ 16
  parityShards : m.parityShards ≤ 16
  shards : ∀ s ∈ m.shards, s.index ≤ 3 ∧ isSafeChunkId s.chunkId = true ∧ IsField s.peer

theorem parseInt_text {n low high : ℕ} (hlow : low ≤ n) (hhigh : n ≤ high) (hmax : high < 2 ^ 64) :
    parseInt (Decimal.text n) low high = some n := by
  have hle : n ≤ (UInt64.ofNat high).toNat := by rwa [UInt64.toNat_ofNat_of_lt' hmax]
  have hnat : (UInt64.ofNat n).toNat = n := UInt64.toNat_ofNat_of_lt' (hhigh.trans_lt hmax)
  simp only [parseInt, parseSize_text hle, hnat, Nat.not_lt.mpr hlow, ↓reduceIte]

theorem parseSize_toNat {n : UInt64} (h : n ≤ kMaxSize) :
    parseSize (Decimal.text n.toNat) kMaxSize = some n := by
  rw [parseSize_text (UInt64.le_iff_toNat_le.mp h), UInt64.ofNat_toNat]

section Lines

variable (m : Manifest)

theorem readLine_server {server : Bytes} (h : IsWord server) :
    m.readLine (sp (ascii "server") server) = .ok { m with server := server } := by
  have hkey : IsWord (ascii "server") := by decide
  simp [readLine, split_sp hkey, split_word h]

theorem readLine_name (name : Bytes) : m.readLine (sp (ascii "name") name) =
    .ok (if wireName name = [] then m else { m with name := wireName name }) := by
  have hkey : IsWord (ascii "name") := by decide
  have hne : ascii "name" ≠ ascii "server" := by decide
  simp only [readLine, split_sp hkey, hne, false_and, ↓reduceIte, splitN_two hkey name]
  split_ifs <;> rfl

theorem readLine_streamSize {n : UInt64} (h : n ≤ kMaxSize) :
    m.readLine (sp (ascii "stream-size") (Decimal.text n.toNat)) =
      .ok { m with streamSize := n } := by
  have hkey : IsWord (ascii "stream-size") := by decide
  have h1 : ascii "stream-size" ≠ ascii "server" := by decide
  have h2 : ascii "stream-size" ≠ ascii "name" := by decide
  simp [readLine, split_sp hkey, split_word (isWord_text _), h1, h2, parseSize_toNat h]

theorem readLine_shardSize {n : UInt64} (h : n ≤ kMaxSize) :
    m.readLine (sp (ascii "shard-size") (Decimal.text n.toNat)) =
      .ok { m with shardSize := n } := by
  have hkey : IsWord (ascii "shard-size") := by decide
  have h1 : ascii "shard-size" ≠ ascii "server" := by decide
  have h2 : ascii "shard-size" ≠ ascii "name" := by decide
  have h3 : ascii "shard-size" ≠ ascii "stream-size" := by decide
  simp [readLine, split_sp hkey, split_word (isWord_text _), h1, h2, h3, parseSize_toNat h]

/-- An empty tag leaves a line without a second field, which is skipped. -/
theorem readLine_dedupTag {tag : Bytes} (h : tag = [] ∨ IsWord tag) (hm : m.dedupTag = []) :
    m.readLine (sp (ascii "dedup-tag") tag) = .ok { m with dedupTag := tag } := by
  have hkey : IsWord (ascii "dedup-tag") := by decide
  have h1 : ascii "dedup-tag" ≠ ascii "server" := by decide
  have h2 : ascii "dedup-tag" ≠ ascii "name" := by decide
  have h3 : ascii "dedup-tag" ≠ ascii "stream-size" := by decide
  have h4 : ascii "dedup-tag" ≠ ascii "shard-size" := by decide
  rcases h with rfl | h
  · have hsame : { m with dedupTag := [] } = m := by rw [← hm]
    have h5 : ascii "dedup-tag" ≠ ascii "layout" := by decide
    have h6 : ascii "dedup-tag" ≠ ascii "shard" := by decide
    simp [readLine, split_sp hkey, h1, h2, h3, h4, h5, h6, hsame]
  · simp [readLine, split_sp hkey, split_word h, h1, h2, h3, h4]

theorem readLine_layout {data parity : ℕ} (hdata : 1 ≤ data ∧ data ≤ 16) (hparity : parity ≤ 16) :
    m.readLine (sp (ascii "layout") (sp (Decimal.text data) (Decimal.text parity))) =
      .ok { m with dataShards := data, parityShards := parity } := by
  have hkey : IsWord (ascii "layout") := by decide
  have h1 : ascii "layout" ≠ ascii "server" := by decide
  have h2 : ascii "layout" ≠ ascii "name" := by decide
  have h3 : ascii "layout" ≠ ascii "stream-size" := by decide
  have h4 : ascii "layout" ≠ ascii "shard-size" := by decide
  have h5 : ascii "layout" ≠ ascii "dedup-tag" := by decide
  simp [readLine, split_sp hkey, split_sp (isWord_text _), split_word (isWord_text _), h1, h2, h3,
    h4, h5, parseInt_text hdata.1 hdata.2 (by decide), parseInt_text (Nat.zero_le _) hparity
    (by decide)]

theorem readLine_shard {s : ShardRef} (hindex : s.index ≤ 3)
    (hid : isSafeChunkId s.chunkId = true) (hpeer : IsWord s.peer) :
    m.readLine (shardLine s) = .ok { m with shards := m.shards ++ [s] } := by
  have hkey : IsWord (ascii "shard") := by decide
  have h1 : ascii "shard" ≠ ascii "server" := by decide
  have h2 : ascii "shard" ≠ ascii "name" := by decide
  have h3 : ascii "shard" ≠ ascii "stream-size" := by decide
  have h4 : ascii "shard" ≠ ascii "shard-size" := by decide
  have h5 : ascii "shard" ≠ ascii "dedup-tag" := by decide
  have h6 : ascii "shard" ≠ ascii "layout" := by decide
  simp [readLine, shardLine, split_sp hkey, split_sp (isWord_text _),
    split_sp (isWord_of_isSafeChunkId hid), split_word hpeer, h1, h2, h3, h4, h5, h6,
    parseInt_text (Nat.zero_le _) hindex (by decide), hid]

theorem readLine_shards {refs : List ShardRef}
    (h : ∀ s ∈ refs, s.index ≤ 3 ∧ isSafeChunkId s.chunkId = true ∧ IsField s.peer) :
    (refs.map shardLine).foldlM readLine m = .ok { m with shards := m.shards ++ refs } := by
  induction refs generalizing m with
  | nil => simp only [List.map_nil, List.foldlM_nil, List.append_nil]; rfl
  | cons s refs ih =>
    obtain ⟨hindex, hid, hpeer⟩ := h s (by simp)
    rw [List.map_cons, List.foldlM_cons, m.readLine_shard hindex hid hpeer.toIsWord]
    simp only [bind, Except.bind]
    rw [ih _ fun x hx => h x (List.mem_cons_of_mem _ hx)]
    simp

end Lines

theorem no_break_lines {m : Manifest} (h : m.Writable) : ∀ l ∈ m.lines, 10 ∉ l := by
  have htext (n : ℕ) : 10 ∉ Decimal.text n := Decimal.text_not_mem (by decide)
  have hsp {a b : Bytes} (ha : 10 ∉ a) (hb : 10 ∉ b) : 10 ∉ sp a b := by
    simp [sp, ha, hb]
  have hid {id : Bytes} (hsafe : isSafeChunkId id = true) : 10 ∉ id := by
    intro hmem
    unfold isSafeChunkId at hsafe
    simp only [decide_eq_true_eq, List.all_eq_true] at hsafe
    exact absurd (hsafe.2 10 hmem) (by decide)
  have htag : 10 ∉ m.dedupTag := by
    rcases h.dedupTag with htag | htag
    · simp [htag]
    · exact htag.noBreak
  intro l hl
  simp only [lines, List.mem_append, List.mem_cons, List.not_mem_nil, or_false, List.mem_map] at hl
  rcases hl with (rfl | rfl | rfl | rfl | rfl | rfl | rfl) | ⟨s, hs, rfl⟩
  · exact hsp (by decide) (htext _)
  · exact hsp (by decide) h.server.noBreak
  · exact hsp (by decide) h.name
  · exact hsp (by decide) (htext _)
  · exact hsp (by decide) (htext _)
  · exact hsp (by decide) htag
  · exact hsp (by decide) (hsp (htext _) (htext _))
  · obtain ⟨-, hsafe, hpeer⟩ := h.shards s hs
    exact hsp (by decide) (hsp (htext _) (hsp (hid hsafe) hpeer.noBreak))

theorem lines_ne_nil (m : Manifest) : ∀ l ∈ m.lines, l ≠ [] := by
  intro l hl
  simp only [lines, List.mem_append, List.mem_cons, List.not_mem_nil, or_false, List.mem_map] at hl
  rcases hl with (rfl | rfl | rfl | rfl | rfl | rfl | rfl) | ⟨s, hs, rfl⟩
  all_goals simp [sp, shardLine]

theorem split_text {m : Manifest} (h : m.Writable) : Lines.split 10 m.text = m.lines :=
  Lines.split_join (no_break_lines h)

def headerLines (m : Manifest) : List Bytes :=
  [sp (ascii "server") m.server,
    sp (ascii "name") m.name,
    sp (ascii "stream-size") (Decimal.text m.streamSize.toNat),
    sp (ascii "shard-size") (Decimal.text m.shardSize.toNat),
    sp (ascii "dedup-tag") m.dedupTag,
    sp (ascii "layout") (sp (Decimal.text m.dataShards) (Decimal.text m.parityShards))]

theorem lines_eq (m : Manifest) : m.lines =
    sp kMagic (Decimal.text kVersion) :: (m.headerLines ++ m.shards.map shardLine) := rfl

theorem foldlM_headerLines {m : Manifest} (h : m.Writable) :
    m.headerLines.foldlM readLine {} = .ok { m with name := wireName m.name, shards := [] } := by
  have htag : m.dedupTag = [] ∨ IsWord m.dedupTag := h.dedupTag.imp_right fun h => h.toIsWord
  simp only [headerLines, List.foldlM_cons, List.foldlM_nil, readLine_server _ h.server.toIsWord,
    readLine_name, bind, Except.bind]
  split_ifs with hname
  · simp only [readLine_streamSize _ h.streamSize, readLine_shardSize _ h.shardSize,
      readLine_dedupTag _ htag, readLine_layout _ h.dataShards h.parityShards, hname]
    rfl
  · simp only [readLine_streamSize _ h.streamSize, readLine_shardSize _ h.shardSize,
      readLine_dedupTag _ htag, readLine_layout _ h.dataShards h.parityShards]
    rfl

theorem foldlM_lines {m : Manifest} (h : m.Writable) {refs : List ShardRef}
    (hrefs : refs ⊆ m.shards) : (m.headerLines ++ refs.map shardLine).foldlM readLine {} =
      .ok { m with name := wireName m.name, shards := refs } := by
  rw [List.foldlM_append, foldlM_headerLines h]
  exact readLine_shards _ fun s hs => h.shards s (hrefs hs)

/-- A manifest is read back as it was written, except that the name loses the spaces in front of
it; it is refused when what remains of the name cannot be stored. -/
theorem read_text {m : Manifest} (h : m.Writable) :
    read m.text = if isSafeName (wireName m.name) then .ok { m with name := wireName m.name }
      else .error "manifest has no usable file name" := by
  have hmagic : split (sp kMagic (Decimal.text kVersion)) = [kMagic, Decimal.text kVersion] := by
    rw [split_sp (by decide), split_word (isWord_text _)]
  have hserver := h.server.ne_nil
  have hempty : isSafeName [] = false := by decide
  simp only [read, split_text h, lines_eq, hmagic, ne_eq, not_true_eq_false, ↓reduceIte,
    foldlM_lines h (List.Subset.refl _), bind, Except.bind]
  by_cases hsafe : isSafeName (wireName m.name) = true
  · have hname : wireName m.name ≠ [] := by
      intro hname
      rw [hname, hempty] at hsafe
      contradiction
    simp [hname, hsafe, hserver]
  · simp [hsafe]

theorem peekServer_text {m : Manifest} (h : m.Writable) : peekServer m.text = some m.server := by
  have hserver : split (sp (ascii "server") m.server) = [ascii "server", m.server] := by
    rw [split_sp (by decide), split_word h.server.toIsWord]
  simp only [peekServer, split_text h, lines_eq, headerLines, List.tail_cons, List.cons_append,
    List.findSome?_cons, hserver, ↓reduceIte]

theorem head_wireName (name : Bytes) : (wireName name).head? ≠ some 32 := by
  intro hhead
  exact absurd (Tokens.skip_head_noSep hhead) (by decide)

/-- A manifest of a storable name is read back as it was written exactly if the name does not begin
with a space. The server alone can be read in any case. -/
theorem read_text_iff {m : Manifest} (h : m.Writable) (hname : isSafeName m.name = true) :
    (read m.text = .ok m ∧ peekServer m.text = some m.server) ↔ m.name.head? ≠ some 32 := by
  constructor
  · rintro ⟨hread, -⟩
    rw [read_text h] at hread
    split_ifs at hread
    have hsame : wireName m.name = m.name := congrArg Manifest.name (Except.ok.inj hread)
    rw [← hsame]
    exact head_wireName m.name
  · intro hhead
    have hsame : wireName m.name = m.name := wireName_of_head hhead
    refine ⟨?_, peekServer_text h⟩
    rw [read_text h, hsame, if_pos hname]

def sampleManifest : Manifest where
  server := ascii "server:5050"
  name := ascii "a  b "
  streamSize := 3
  shardSize := 2
  dataShards := 2
  parityShards := 2
  shards := [⟨0, List.replicate 64 97, ascii "peer:1"⟩, ⟨3, List.replicate 64 98, ascii "peer:2"⟩]

theorem sampleManifest_writable : sampleManifest.Writable where
  server := ⟨by decide, by decide⟩
  name := by decide
  streamSize := by decide
  shardSize := by decide
  dedupTag := .inl rfl
  dataShards := by decide
  parityShards := by decide
  shards := by
    intro s hs
    rcases List.mem_pair.mp hs with rfl | rfl
    · exact ⟨by decide, by decide, by decide, by decide⟩
    · exact ⟨by decide, by decide, by decide, by decide⟩

theorem read_text_iff_inner_spaces :
    read sampleManifest.text = .ok sampleManifest ∧
    peekServer sampleManifest.text = some (ascii "server:5050") :=
  (read_text_iff sampleManifest_writable (by decide)).mpr (by decide)

/-- The space in front of the name is lost. -/
theorem read_text_leading_space :
    let m : Manifest := { sampleManifest with name := ascii " a" }
    m.Writable ∧ isSafeName m.name = true ∧ read m.text = .ok { m with name := ascii "a" } := by
  intro m
  have hwritable : m.Writable := { sampleManifest_writable with name := by decide }
  refine ⟨hwritable, by decide, ?_⟩
  rw [read_text hwritable]
  rfl

theorem read_ok {content : Bytes} {m : Manifest} (h : read content = .ok m) :
    isSafeName m.name = true ∧ m.server ≠ [] ∧ ∃ first rest,
      Lines.split 10 content = first :: rest ∧ rest.foldlM readLine {} = .ok m := by
  unfold read at h
  split at h
  · cases h
  · next first rest hlines =>
    split at h
    · split_ifs at h
      cases hfold : rest.foldlM readLine {} with
      | error e => simp [hfold, bind, Except.bind] at h
      | ok parsed =>
        simp only [hfold, bind, Except.bind] at h
        split_ifs at h with hname hserver
        obtain rfl := Except.ok.inj h
        simp only [not_or, Bool.not_eq_false] at hname
        exact ⟨hname.2, by simpa using hserver, first, rest, hlines, hfold⟩
    · cases h

/-- The address in a line that is taken for the server line. -/
def serverLine (line : Bytes) : Option Bytes :=
  match split line with
  | [key, server] => if key = ascii "server" then some server else none
  | _ => none

/-- The addresses in the server lines behind the first line, in order. -/
def serverLines (content : Bytes) : List Bytes :=
  (Lines.split 10 content).tail.filterMap serverLine

theorem peekServer_eq_head? (content : Bytes) :
    peekServer content = (serverLines content).head? := by
  rw [serverLines, List.head?_filterMap]
  rfl

theorem split_of_serverLine {line server : Bytes} (h : serverLine line = some server) :
    split line = [ascii "server", server] := by
  unfold serverLine at h
  split at h
  · next key address hline =>
    split_ifs at h with hkey
    rw [hline, hkey, Option.some.inj h]
  · cases h

theorem serverLine_eq_none {line key : Bytes} {rest : List Bytes}
    (hfields : split line = key :: rest)
    (h : ¬ (key = ascii "server" ∧ (key :: rest).length = 2)) : serverLine line = none := by
  cases hline : serverLine line with
  | none => rfl
  | some server =>
    have hsplit := split_of_serverLine hline
    rw [hfields] at hsplit
    exact absurd ⟨(List.cons.inj hsplit).1, congrArg List.length hsplit⟩ h

/-- A whole shard line that is accepted adds a shard under a safe identifier. -/
theorem readLine_adds_shard {m m' : Manifest} {line : Bytes} {rest : List Bytes}
    (hfields : split line = ascii "shard" :: rest) (hlen : (ascii "shard" :: rest).length = 4)
    (h : m.readLine line = .ok m') :
    ∃ s : ShardRef, isSafeChunkId s.chunkId = true ∧ m' = { m with shards := m.shards ++ [s] } := by
  have h1 : ascii "shard" ≠ ascii "server" := by decide
  have h2 : ascii "shard" ≠ ascii "name" := by decide
  have h3 : ascii "shard" ≠ ascii "stream-size" := by decide
  have h4 : ascii "shard" ≠ ascii "shard-size" := by decide
  have h5 : ascii "shard" ≠ ascii "dedup-tag" := by decide
  have h6 : ascii "shard" ≠ ascii "layout" := by decide
  simp only [readLine, hfields, h1, h2, h3, h4, h5, h6, hlen, and_self, false_and,
    ↓reduceIte] at h
  cases hindex : parseInt ((ascii "shard" :: rest).getD 1 []) 0 3 with
  | none =>
    rw [hindex] at h
    cases h
  | some index =>
    simp only [hindex] at h
    split_ifs at h with hid
    exact ⟨_, by simpa using hid, (Except.ok.inj h).symm⟩

/-- What a line that is accepted does: it sets the server, adds a shard, or leaves both alone. -/
theorem readLine_cases {m m' : Manifest} {line : Bytes} (h : m.readLine line = .ok m') :
    (∃ server, serverLine line = some server ∧ m' = { m with server := server }) ∨
    (serverLine line = none ∧ (split line).head? = some (ascii "shard") ∧ (split line).length = 4 ∧
      ∃ s : ShardRef, isSafeChunkId s.chunkId = true ∧
        m' = { m with shards := m.shards ++ [s] }) ∨
    (serverLine line = none ∧ m'.server = m.server ∧ m'.shards = m.shards) := by
  cases hfields : split line with
  | nil =>
    simp only [readLine, hfields] at h
    obtain rfl := Except.ok.inj h
    exact .inr (.inr ⟨by simp [serverLine, hfields], rfl, rfl⟩)
  | cons key rest =>
    by_cases hserver : key = ascii "server" ∧ (key :: rest).length = 2
    · obtain ⟨rfl, hlen⟩ := hserver
      obtain ⟨server, rfl⟩ := List.length_eq_one_iff.mp (Nat.succ.inj hlen)
      simp only [readLine, hfields, List.length_cons, List.length_nil, and_self, ↓reduceIte] at h
      exact .inl ⟨server, by simp [serverLine, hfields], (Except.ok.inj h).symm⟩
    right
    have hnone := serverLine_eq_none hfields hserver
    by_cases hshard : key = ascii "shard" ∧ (key :: rest).length = 4
    · obtain ⟨rfl, hlen⟩ := hshard
      exact .inl ⟨hnone, rfl, hlen, readLine_adds_shard hfields hlen h⟩
    · right
      refine ⟨hnone, ?_⟩
      simp only [readLine, hfields, if_neg hserver, if_neg hshard] at h
      split_ifs at h
      · split at h
        · exact (Except.ok.inj h).symm ▸ ⟨rfl, rfl⟩
        · exact (Except.ok.inj h).symm ▸ ⟨rfl, rfl⟩
      · split at h
        · cases h
        · exact (Except.ok.inj h).symm ▸ ⟨rfl, rfl⟩
      · split at h
        · cases h
        · exact (Except.ok.inj h).symm ▸ ⟨rfl, rfl⟩
      · exact (Except.ok.inj h).symm ▸ ⟨rfl, rfl⟩
      · split at h
        · exact (Except.ok.inj h).symm ▸ ⟨rfl, rfl⟩
        · cases h
      · exact (Except.ok.inj h).symm ▸ ⟨rfl, rfl⟩

theorem foldlM_server {m m' : Manifest} {ls : List Bytes} (h : ls.foldlM readLine m = .ok m') :
    m'.server = (ls.filterMap serverLine).getLast?.getD m.server := by
  induction ls generalizing m with
  | nil => exact (Except.ok.inj h).symm ▸ rfl
  | cons l ls ih =>
    rw [List.foldlM_cons] at h
    cases hl : m.readLine l with
    | error e =>
      rw [hl] at h
      cases h
    | ok next =>
      rw [hl] at h
      rw [ih h]
      rcases readLine_cases hl with ⟨server, hserver, rfl⟩ | ⟨hserver, -, -, s, -, rfl⟩ |
        ⟨hserver, hkeeps, -⟩
      · rw [List.filterMap_cons_some hserver, List.getLast?_cons]
        rfl
      · rw [List.filterMap_cons_none hserver]
      · rw [List.filterMap_cons_none hserver, hkeeps]

theorem getLast?_serverLines {content : Bytes} {m : Manifest} (h : read content = .ok m) :
    (serverLines content).getLast? = some m.server := by
  obtain ⟨-, hne, first, rest, hlines, hfold⟩ := read_ok h
  have hserver := foldlM_server hfold
  rw [serverLines, hlines, List.tail_cons]
  cases hlast : (rest.filterMap serverLine).getLast? with
  | none =>
    rw [hlast] at hserver
    exact absurd hserver hne
  | some server =>
    rw [hlast] at hserver
    rw [hserver]
    rfl

theorem prefix_sp {p a b : Bytes} (h : p <+: sp a b) : p <+: a ∨ ∃ q, q <+: b ∧ p = sp a q := by
  have ha : a <+: sp a b := List.prefix_append a _
  rcases Nat.le_total p.length a.length with hle | hle
  · exact .inl (List.prefix_of_prefix_length_le h ha hle)
  · obtain ⟨r, rfl⟩ := List.prefix_of_prefix_length_le ha h hle
    have hr : r <+: 32 :: b := (List.prefix_append_right_inj a).mp h
    cases r with
    | nil => exact .inl (by simp)
    | cons c q =>
      obtain ⟨rfl, hq⟩ := List.cons_prefix_cons.mp hr
      exact .inr ⟨q, hq, rfl⟩

theorem split_of_prefix_word {p w : Bytes} (hw : IsWord w) (h : p <+: w) :
    split p = [] ∨ split p = [p] := by
  cases p with
  | nil => exact .inl rfl
  | cons c p => exact .inr (split_word ⟨by simp, fun x hx => hw.2 x (h.subset hx)⟩)

theorem readLine_keeps_shards {m m' : Manifest} {line : Bytes} (h : m.readLine line = .ok m')
    (hline : (split line).head? ≠ some (ascii "shard") ∨ (split line).length ≠ 4) :
    m'.shards = m.shards := by
  rcases readLine_cases h with ⟨server, -, rfl⟩ | ⟨-, hhead, hlen, -⟩ | ⟨-, -, hshards⟩
  · rfl
  · exact hline.elim (fun hne => absurd hhead hne) (fun hne => absurd hlen hne)
  · exact hshards

theorem readLine_shards_safe {m m' : Manifest} {line : Bytes} (h : m.readLine line = .ok m')
    (hm : ∀ s ∈ m.shards, isSafeChunkId s.chunkId = true) :
    ∀ s ∈ m'.shards, isSafeChunkId s.chunkId = true := by
  rcases readLine_cases h with ⟨server, -, rfl⟩ | ⟨-, -, -, ref, hid, rfl⟩ | ⟨-, -, hshards⟩
  · exact hm
  · intro s hs
    rcases List.mem_append.mp hs with hs | hs
    · exact hm s hs
    · rwa [List.mem_singleton.mp hs]
  · rwa [hshards]

theorem read_shards_safe {content : Bytes} {m : Manifest} (h : read content = .ok m) :
    ∀ s ∈ m.shards, isSafeChunkId s.chunkId = true := by
  obtain ⟨-, -, first, rest, -, hfold⟩ := read_ok h
  have hstart : ∀ s ∈ ({} : Manifest).shards, isSafeChunkId s.chunkId = true := by simp
  clear h
  generalize ({} : Manifest) = start at hfold hstart
  induction rest generalizing start with
  | nil => exact Except.ok.inj hfold ▸ hstart
  | cons l ls ih =>
    rw [List.foldlM_cons] at hfold
    cases hread : start.readLine l with
    | error e => simp [hread, bind, Except.bind] at hfold
    | ok next =>
      simp only [hread, bind, Except.bind] at hfold
      exact ih next hfold (readLine_shards_safe hread hstart)

theorem keeps_shards_of_prefix {key rest p : Bytes} (hkey : IsWord key)
    (hne : key ≠ ascii "shard") (hp : p <+: sp key rest) :
    (split p).head? ≠ some (ascii "shard") ∨ (split p).length ≠ 4 := by
  rcases prefix_sp hp with hp | ⟨q, -, rfl⟩
  · rcases split_of_prefix_word hkey hp with hsplit | hsplit
    · simp [hsplit]
    · simp [hsplit]
  · left
    simpa [split_sp hkey] using hne

theorem foldlM_keeps_shards {m m' : Manifest} {ls : List Bytes}
    (h : ls.foldlM readLine m = .ok m')
    (hls : ∀ l ∈ ls, (split l).head? ≠ some (ascii "shard") ∨ (split l).length ≠ 4) :
    m'.shards = m.shards := by
  induction ls generalizing m with
  | nil => exact (Except.ok.inj h).symm ▸ rfl
  | cons l ls ih =>
    rw [List.foldlM_cons] at h
    cases hread : m.readLine l with
    | error e => simp [hread, bind, Except.bind] at h
    | ok m1 =>
      simp only [hread, bind, Except.bind] at h
      rw [ih h fun x hx => hls x (List.mem_cons_of_mem _ hx)]
      exact readLine_keeps_shards hread (hls l (by simp))

theorem readLine_single (m : Manifest) {line key : Bytes} (hline : split line = [key])
    (hne : key ≠ ascii "name") : m.readLine line = .ok m := by
  simp [readLine, hline, hne]

theorem readLine_shard_short (m : Manifest) {q : Bytes} (hq : (split q).length ≠ 3) :
    m.readLine (sp (ascii "shard") q) = .ok m := by
  have hkey : IsWord (ascii "shard") := by decide
  have h1 : ascii "shard" ≠ ascii "server" := by decide
  have h2 : ascii "shard" ≠ ascii "name" := by decide
  have h3 : ascii "shard" ≠ ascii "stream-size" := by decide
  have h4 : ascii "shard" ≠ ascii "shard-size" := by decide
  have h5 : ascii "shard" ≠ ascii "dedup-tag" := by decide
  have h6 : ascii "shard" ≠ ascii "layout" := by decide
  simp [readLine, split_sp hkey, h1, h2, h3, h4, h5, h6, hq]

/-- A part of a shard line says nothing, or all about the shard except perhaps its peer. -/
theorem readLine_part_of_shard {m m' : Manifest} {s : ShardRef} (hindex : s.index ≤ 3)
    (hid : isSafeChunkId s.chunkId = true) (hpeer : IsWord s.peer) {p : Bytes}
    (hp : p <+: shardLine s) (h : m.readLine p = .ok m') :
    m' = m ∨ ∃ peer, p = shardLine { s with peer := peer } ∧
      m' = { m with shards := m.shards ++ [{ s with peer := peer }] } := by
  have hkey : IsWord (ascii "shard") := by decide
  have hshort {q : Bytes} (hq : (split q).length ≠ 3)
      (h : m.readLine (sp (ascii "shard") q) = .ok m') : m' = m := by
    rw [readLine_shard_short m hq] at h
    exact (Except.ok.inj h).symm
  rcases prefix_sp hp with hp | ⟨q, hq, rfl⟩
  · left
    rcases split_of_prefix_word hkey hp with hsplit | hsplit
    · rw [readLine, hsplit] at h
      exact (Except.ok.inj h).symm
    · have hne : p ≠ ascii "name" := by
        rintro rfl
        exact absurd hp (by decide)
      rw [readLine_single m hsplit hne] at h
      exact (Except.ok.inj h).symm
  rcases prefix_sp hq with hindexPart | ⟨q, hrest, rfl⟩
  · left
    apply hshort _ h
    rcases split_of_prefix_word (isWord_text s.index) hindexPart with hsplit | hsplit
    · simp [hsplit]
    · simp [hsplit]
  rcases prefix_sp hrest with hidPart | ⟨q, hpeerPart, rfl⟩
  · left
    apply hshort _ h
    rw [split_sp (isWord_text s.index)]
    rcases split_of_prefix_word (isWord_of_isSafeChunkId hid) hidPart with hsplit | hsplit
    · simp [hsplit]
    · simp [hsplit]
  · cases q with
    | nil =>
      left
      apply hshort _ h
      rw [split_sp (isWord_text s.index), split_sp (isWord_of_isSafeChunkId hid)]
      simp
    | cons c q =>
      right
      have hword : IsWord (c :: q) := ⟨by simp, fun x hx => hpeer.2 x (hpeerPart.subset hx)⟩
      have hread := m.readLine_shard (s := { s with peer := c :: q }) hindex hid hword
      have hline : shardLine { s with peer := c :: q } = sp (ascii "shard")
          (sp (Decimal.text s.index) (sp s.chunkId (c :: q))) := rfl
      rw [hline, h] at hread
      exact ⟨_, hline.symm, Except.ok.inj hread⟩

/-- What is read of a record that was cut off behind its head: some of its shards, the last one
perhaps with a part of its peer. -/
def CutOf (m' m : Manifest) : Prop :=
  ∃ refs, refs.map ShardRef.what <+: m.shards.map ShardRef.what ∧
    m' = { m with name := wireName m.name, shards := refs }

theorem headerLines_keep_shards (m : Manifest) {l p : Bytes} (hl : l ∈ m.headerLines)
    (hp : p <+: l) : (split p).head? ≠ some (ascii "shard") ∨ (split p).length ≠ 4 := by
  simp only [headerLines, List.mem_cons, List.not_mem_nil, or_false] at hl
  rcases hl with rfl | rfl | rfl | rfl | rfl | rfl
  all_goals exact keeps_shards_of_prefix (by decide) (by decide) hp

/-- The lines in front of the cut and the part behind them, read on their own. -/
private theorem foldlM_cut {m m' : Manifest} (h : m.Writable) {before after : List Bytes}
    {line part : Bytes} (hlines : before ++ line :: after = m.headerLines ++ m.shards.map shardLine)
    (hpart : part <+: line)
    (hfold : (before ++ if part.isEmpty then [] else [part]).foldlM readLine {} = .ok m') :
    m'.shards = [] ∨ m'.CutOf m ∧ (m'.shards = m.shards → part = line ∧ after = []) := by
  have hinShards {front : List Bytes} (hbefore : before = m.headerLines ++ front)
      (hmap : m.shards.map shardLine = front ++ line :: after) :
      m'.CutOf m ∧ (m'.shards = m.shards → part = line ∧ after = []) := by
    obtain ⟨refs, others, hshards, rfl, hothers⟩ := List.map_eq_append_iff.mp hmap
    obtain ⟨s, tail, rfl, rfl, hafter⟩ := List.map_eq_cons_iff.mp hothers
    have hsub : refs ⊆ m.shards := by
      rw [hshards]
      exact List.subset_append_left _ _
    obtain ⟨hindex, hid, hpeer⟩ := h.shards s (by rw [hshards]; simp)
    rw [hbefore, List.foldlM_append, foldlM_lines h hsub] at hfold
    have hwhat (peer : Bytes) : (refs ++ [{ s with peer := peer }]).map ShardRef.what <+:
        m.shards.map ShardRef.what := by
      rw [hshards]
      simp [ShardRef.what]
    have hrefs : refs.map ShardRef.what <+: m.shards.map ShardRef.what :=
      (List.prefix_append refs [s]).map _ |>.trans (hwhat s.peer)
    have hfewer : refs ≠ m.shards := by
      intro heq
      simpa using congrArg List.length (heq.trans hshards)
    split_ifs at hfold
    · obtain rfl := Except.ok.inj hfold
      exact ⟨⟨refs, hrefs, rfl⟩, fun heq => absurd heq hfewer⟩
    · simp only [List.foldlM_cons, List.foldlM_nil, bind_pure] at hfold
      rcases readLine_part_of_shard hindex hid hpeer.toIsWord hpart hfold with rfl | ⟨peer, hp, rfl⟩
      · exact ⟨⟨refs, hrefs, rfl⟩, fun heq => absurd heq hfewer⟩
      · refine ⟨⟨_, hwhat peer, rfl⟩, fun heq => ?_⟩
        have hlast : [{ s with peer := peer }] = s :: tail :=
          List.append_cancel_left (heq.trans hshards)
        obtain ⟨hs, htail⟩ := List.cons.inj hlast
        exact ⟨hs ▸ hp, by rw [← hafter, ← htail, List.map_nil]⟩
  rcases List.append_eq_append_iff.mp hlines with ⟨front, hheader, hrest⟩ | ⟨front, hbefore, hmap⟩
  · cases front with
    | nil => exact .inr (@hinShards [] (by simp [hheader]) hrest.symm)
    | cons l front =>
      obtain ⟨rfl, -⟩ : line = l ∧ after = front ++ m.shards.map shardLine := by simpa using hrest
      left
      apply foldlM_keeps_shards hfold
      intro x hx
      rcases List.mem_append.mp hx with hx | hx
      · exact m.headerLines_keep_shards (by rw [hheader]; simp [hx]) List.prefix_rfl
      · split_ifs at hx
        · simp at hx
        · rw [List.mem_singleton.mp hx]
          exact m.headerLines_keep_shards (by rw [hheader]; simp) hpart
  · exact .inr (hinShards hbefore hmap)

/-- What is read of a record that was cut off, and what it takes for all shards to be read. -/
private theorem read_cut {m m' : Manifest} (h : m.Writable) {k : ℕ}
    (hread : read (m.text.take k) = .ok m') : m'.shards = [] ∨
      m'.CutOf m ∧ (m'.shards = m.shards → Lines.split 10 (m.text.take k) = m.lines) := by
  obtain ⟨-, -, first, rest, hlines, hfold⟩ := read_ok hread
  rcases Lines.split_take_join (no_break_lines h) k with hsplit | ⟨before, line, after, part, hm,
    hpart, hsplit⟩
  · refine .inr ⟨?_, fun _ => hsplit⟩
    rw [← text, hlines] at hsplit
    obtain ⟨-, rfl⟩ : first = _ ∧ rest = m.headerLines ++ m.shards.map shardLine := by
      simpa [lines_eq] using hsplit
    rw [foldlM_lines h (List.Subset.refl _)] at hfold
    exact ⟨m.shards, List.prefix_rfl, (Except.ok.inj hfold).symm⟩
  rw [← text] at hsplit
  cases before with
  | nil =>
    have hrest : rest = [] := by
      rw [hlines, List.nil_append] at hsplit
      split_ifs at hsplit
      · exact (List.cons.inj hsplit).2
    subst hrest
    exact .inl ((Except.ok.inj hfold).symm ▸ rfl)
  | cons b before =>
    obtain ⟨rfl, rfl⟩ := List.cons.inj (hlines.symm.trans hsplit)
    have hrest := (List.cons.inj hm).2.symm
    rcases foldlM_cut h hrest hpart hfold with hnone | ⟨hcut, hall⟩
    · exact .inl hnone
    · refine .inr ⟨hcut, fun heq => ?_⟩
      obtain ⟨rfl, rfl⟩ := hall heq
      have hne : part ≠ [] := lines_ne_nil m part (by rw [hm]; simp)
      rw [hsplit, hm, if_neg (by simpa using hne)]

/-- Of a record that is cut off either no shard is read, or all that stands in front of the
shards. -/
theorem read_take {m m' : Manifest} (h : m.Writable) {k : ℕ}
    (hread : read (m.text.take k) = .ok m') : m'.shards = [] ∨ m'.CutOf m :=
  (read_cut h hread).imp_right And.left

/-- All shards are only read when at most the last line break is missing. -/
theorem length_le_of_read_take {m m' : Manifest} (h : m.Writable) {k : ℕ}
    (hread : read (m.text.take k) = .ok m') (hshards : m'.shards = m.shards) (hne : m.shards ≠ []) :
    m.text.length ≤ k + 1 := by
  rcases read_cut h hread with hnone | ⟨-, hall⟩
  · exact absurd (hshards.symm.trans hnone) hne
  · have hlen := @Lines.length_join_split_le UInt8 _ 10 (m.text.take k)
    rw [hall hshards, ← text, List.length_take] at hlen
    omega

/-- Then the record is read as if it were complete. -/
theorem read_take_of_length_le {m : Manifest} (h : m.Writable) {k : ℕ}
    (hk : m.text.length ≤ k + 1) : read (m.text.take k) = read m.text := by
  rcases Nat.lt_or_ge k m.text.length with hlt | hge
  · obtain ⟨ls, l, hlines⟩ : ∃ ls l, m.lines = ls ++ [l] :=
      ⟨_, _, (List.dropLast_append_getLast (by simp [lines])).symm⟩
    have hbreak := no_break_lines h
    have hl : l ≠ [] := lines_ne_nil m l (by rw [hlines]; simp)
    rw [hlines] at hbreak
    have htext : m.text = (Lines.join 10 ls ++ l) ++ [10] := by
      rw [text, hlines]
      simp [Lines.join]
    have htake : m.text.take k = Lines.join 10 ls ++ l := by
      rw [htext] at hk hlt ⊢
      rw [List.length_append, List.length_singleton] at hk hlt
      exact List.take_left' (by omega)
    have hsplit : Lines.split 10 (m.text.take k) = Lines.split 10 m.text := by
      rw [htake, split_text h, hlines]
      exact Lines.split_join_dropLast (fun x hx => hbreak x (List.mem_append_left _ hx))
        (hbreak l (by simp)) hl
    rw [read, hsplit]
    rfl
  · rw [List.take_of_length_le hge]

end Manifest

end PersonalCloud
