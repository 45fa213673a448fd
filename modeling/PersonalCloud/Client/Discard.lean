import PersonalCloud.Client.Recover

/-! Which files reach the joiner when a manifest lists several lines for one shard: all lines of an
index share one file, and a line that is not verified may still have written to it. -/
namespace PersonalCloud

open Proto Channel Remote

variable {H : Sha256} {fetch : ℕ → Fetch} {refs : List ShardRef} {i : Shard} {k : ℕ} {c : Bytes}

/-- What an answer leaves in the file it is fetched into, when it gets that far. -/
def Fetch.written (f : Fetch) : Option Bytes :=
  if f.connects = false then none else (getChunk f.write f.incoming none).2

def Fetch.found (f : Fetch) : Bool :=
  match (getChunk f.write f.incoming none).1 with
  | .error _ => false
  | .ok found => found

def Fetch.Verifies (H : Sha256) (f : Fetch) (ref : ShardRef) : Prop :=
  f.connects = true ∧ f.found = true ∧ sha256FileHex H f.hash f.written = ref.chunkId

instance (f : Fetch) (ref : ShardRef) : Decidable (f.Verifies H ref) := instDecidableAnd

/-- The files handed to the joiner, when it is called. -/
def handed (H : Sha256) (fetch : ℕ → Fetch) (m : Manifest) : Option (Shard → Option Bytes) :=
  let r := fetchShards H fetch 0 m.shards .start
  if r.recovered < Config.kDataShards then none else some r.files

theorem getChunk_dest (w : BodyWrite) (incoming : Bytes) (dest : Option Bytes) :
    getChunk w incoming dest =
      ((getChunk w incoming none).1, (getChunk w incoming none).2.or dest) := by
  have hbody (size : ℕ) (input : Bytes) : readBodyToFile w size input dest =
      ((readBodyToFile w size input none).1, (readBodyToFile w size input none).2.or dest) := by
    cases w with
    | notOpened => rfl
    | failed k => rfl
    | lost k =>
      simp only [readBodyToFile]
      split_ifs <;> rfl
    | done =>
      simp only [readBodyToFile]
      split_ifs <;> rfl
  simp only [getChunk]
  split
  · rfl
  · rfl
  · next size hsize =>
    rw [hbody]
    generalize readBodyToFile w size.toNat (((readLine incoming).map Prod.snd).getD []) none = body
    obtain ⟨result, file⟩ := body
    cases result <;> rfl

theorem isSome_of_getChunk {w : BodyWrite} {incoming : Bytes}
    (h : (getChunk w incoming none).1 = .ok true) : (getChunk w incoming none).2.isSome := by
  have hbody {size : ℕ} {input : Bytes} (h : (readBodyToFile w size input none).1 = .ok ()) :
      (readBodyToFile w size input none).2.isSome := by
    unfold readBodyToFile at h ⊢
    cases w with
    | notOpened => simp at h
    | failed k => rfl
    | lost k => split_ifs <;> rfl
    | done => split_ifs <;> rfl
  simp only [getChunk] at h ⊢
  split at h
  · simp at h
  · simp at h
  · next size hsize =>
    revert h
    have hfile := @hbody size.toNat (((readLine incoming).map Prod.snd).getD [])
    generalize readBodyToFile w size.toNat (((readLine incoming).map Prod.snd).getD []) none = body
      at hfile ⊢
    obtain ⟨result, file⟩ := body
    cases result with
    | error e => simp
    | ok u => exact fun _ => hfile rfl

theorem fetchShard_eq (f : Fetch) {ref : ShardRef} (hi : ref.index = i.index) (r : Recovered) :
    fetchShard H f ref r =
      ⟨Function.update r.holders i (f.written.or (r.holders i)),
        if f.Verifies H ref then Function.update r.usable i true else r.usable,
        r.recovered + if f.Verifies H ref then 1 else 0⟩ := by
  unfold fetchShard
  simp only [hi, ofIndex_index]
  by_cases hconn : f.connects = false
  · have hnot : ¬ f.Verifies H ref := fun h => absurd h.1 (by simp [hconn])
    have hwritten : f.written = none := if_pos hconn
    rw [if_pos hconn, if_neg hnot, if_neg hnot, hwritten]
    simp
  · have hwritten : f.written = (getChunk f.write f.incoming none).2 := if_neg hconn
    simp only [Bool.not_eq_false] at hconn
    rw [if_neg (by simp [hconn]), getChunk_dest]
    have hverifies : f.Verifies H ref ↔ f.found = true ∧
        sha256FileHex H f.hash (getChunk f.write f.incoming none).2 = ref.chunkId := by
      simp [Fetch.Verifies, hconn, hwritten]
    simp only [hverifies, hwritten, Fetch.found]
    have hfile := @isSome_of_getChunk f.write f.incoming
    generalize getChunk f.write f.incoming none = got at hfile ⊢
    obtain ⟨result, file⟩ := got
    cases result with
    | error e => simp
    | ok found =>
      cases found with
      | false => simp
      | true =>
        obtain ⟨c, rfl⟩ := Option.isSome_iff_exists.mp (hfile rfl)
        by_cases hhash : sha256FileHex H f.hash (some c) = ref.chunkId
        · simp [hhash]
        · simp [hhash]

def VerifiedAt (H : Sha256) (fetch : ℕ → Fetch) (refs : List ShardRef) (i : Shard) (k : ℕ) : Prop :=
  ∃ ref, refs[k]? = some ref ∧ ref.index = i.index ∧ (fetch k).Verifies H ref

/-- Line `k` is about this shard, and its answer is the last one that writes to the file. -/
def LastWrites (fetch : ℕ → Fetch) (refs : List ShardRef) (i : Shard) (k : ℕ) (c : Bytes) : Prop :=
  ∃ ref, refs[k]? = some ref ∧ ref.index = i.index ∧ (fetch k).written = some c ∧
    ∀ n later, k < n → refs[n]? = some later → later.index = i.index → (fetch n).written = none

def verifiedCount (H : Sha256) (fetch : ℕ → Fetch) (refs : List ShardRef) : ℕ :=
  refs.zipIdx.countP fun p => p.1.index < Config.kTotalShards ∧ (fetch p.2).Verifies H p.1

theorem getElem?_snoc {α : Type*} (l : List α) (x y : α) (k : ℕ) :
    (l ++ [x])[k]? = some y ↔ l[k]? = some y ∨ k = l.length ∧ x = y := by
  rcases lt_trichotomy k l.length with hk | rfl | hk
  · simp [List.getElem?_append_left hk, hk.ne]
  · simp
  · have hnone : l[k]? = none := List.getElem?_eq_none hk.le
    simp [List.getElem?_append_right hk.le, hnone, hk.ne', Nat.sub_ne_zero_of_lt hk]

theorem verifiedAt_snoc (ref : ShardRef) : VerifiedAt H fetch (refs ++ [ref]) i k ↔
    VerifiedAt H fetch refs i k ∨
      k = refs.length ∧ ref.index = i.index ∧ (fetch k).Verifies H ref := by
  simp only [VerifiedAt, getElem?_snoc, or_and_right, exists_or]
  apply or_congr Iff.rfl
  constructor
  · rintro ⟨_, ⟨hk, rfl⟩, h⟩
    exact ⟨hk, h⟩
  · rintro ⟨hk, h⟩
    exact ⟨ref, ⟨hk, rfl⟩, h⟩

/-- A further line takes over when it writes, and changes nothing when it does not. -/
theorem lastWrites_snoc (ref : ShardRef) : LastWrites fetch (refs ++ [ref]) i k c ↔
    (k = refs.length ∧ ref.index = i.index ∧ (fetch k).written = some c) ∨
      LastWrites fetch refs i k c ∧
        (ref.index = i.index → (fetch refs.length).written = none) := by
  constructor
  · rintro ⟨r, hk, hr, hwritten, hlast⟩
    rcases (getElem?_snoc _ _ _ _).mp hk with hk | ⟨hlen, rfl⟩
    · refine .inr ⟨⟨r, hk, hr, hwritten, fun n later hn hlater => ?_⟩, fun href => ?_⟩
      · exact hlast n later hn ((getElem?_snoc _ _ _ _).mpr (.inl hlater))
      · have hlt := (List.getElem?_eq_some_iff.mp hk).1
        exact hlast _ ref hlt ((getElem?_snoc _ _ _ _).mpr (.inr ⟨rfl, rfl⟩)) href
    · exact .inl ⟨hlen, hr, hwritten⟩
  · rintro (⟨rfl, href, hwritten⟩ | ⟨⟨r, hk, hr, hwritten, hlast⟩, hnone⟩)
    · refine ⟨ref, (getElem?_snoc _ _ _ _).mpr (.inr ⟨rfl, rfl⟩), href, hwritten, ?_⟩
      intro n later hn hlater
      have hlt := (List.getElem?_eq_some_iff.mp hlater).1
      rw [List.length_append, List.length_singleton] at hlt
      omega
    · refine ⟨r, (getElem?_snoc _ _ _ _).mpr (.inl hk), hr, hwritten, ?_⟩
      intro n later hn hlater hindex
      rcases (getElem?_snoc _ _ _ _).mp hlater with hlater | ⟨rfl, rfl⟩
      · exact hlast n later hn hlater hindex
      · exact hnone hindex

theorem fetchShards_snoc (n : ℕ) (ref : ShardRef) (r : Recovered) :
    fetchShards H fetch n (refs ++ [ref]) r =
      fetchShard H (fetch (n + refs.length)) ref (fetchShards H fetch n refs r) := by
  induction refs generalizing n r with
  | nil => rfl
  | cons x xs ih =>
    rw [List.cons_append, fetchShards, ih, fetchShards, List.length_cons]
    congr 2
    omega

theorem verifiedCount_snoc (ref : ShardRef) : verifiedCount H fetch (refs ++ [ref]) =
    verifiedCount H fetch refs +
      if ref.index < Config.kTotalShards ∧ (fetch refs.length).Verifies H ref then 1 else 0 := by
  simp [verifiedCount, List.zipIdx_append, List.countP_append, List.countP_cons]

/-- What the state of the loop says about the lines gone through. -/
structure Recovered.Follows (H : Sha256) (fetch : ℕ → Fetch) (refs : List ShardRef)
    (r : Recovered) : Prop where
  holders : ∀ i c, r.holders i = some c ↔ ∃ k, LastWrites fetch refs i k c
  usable : ∀ i, r.usable i = true ↔ ∃ k, VerifiedAt H fetch refs i k
  recovered : r.recovered = verifiedCount H fetch refs

theorem lt_kTotalShards (i : Shard) : i.index < Config.kTotalShards := by cases i <;> decide

theorem ofIndex_eq_none {n : ℕ} (h : Shard.ofIndex n = none) : ¬ n < Config.kTotalShards := by
  intro hlt
  have hcases : n = 0 ∨ n = 1 ∨ n = 2 ∨ n = 3 := by
    have hfour : Config.kTotalShards = 4 := rfl
    omega
  rcases hcases with rfl | rfl | rfl | rfl <;> contradiction

theorem Recovered.Follows.step {r : Recovered} (h : r.Follows H fetch refs) (ref : ShardRef) :
    (fetchShard H (fetch refs.length) ref r).Follows H fetch (refs ++ [ref]) := by
  cases hi : Shard.ofIndex ref.index with
  | none =>
    have hnot : ∀ i : Shard, ref.index ≠ i.index := by
      intro i h
      rw [h, ofIndex_index] at hi
      contradiction
    have heq : fetchShard H (fetch refs.length) ref r = r := by simp [fetchShard, hi]
    rw [heq]
    constructor
    · intro i c
      simp [h.holders, lastWrites_snoc, hnot i]
    · intro i
      simp [h.usable, verifiedAt_snoc, hnot i]
    · rw [verifiedCount_snoc, if_neg (fun hlt => ofIndex_eq_none hi hlt.1), h.recovered]
      rfl
  | some j =>
    have hindex : ref.index = j.index := index_of_ofIndex hi
    rw [fetchShard_eq _ hindex]
    constructor
    · intro i c
      simp only [lastWrites_snoc]
      by_cases hij : i = j
      · subst hij
        cases hwritten : (fetch refs.length).written with
        | none =>
          have hfirst (k : ℕ) : ¬ (k = refs.length ∧ ref.index = i.index ∧
              (fetch k).written = some c) := by
            rintro ⟨rfl, -, hk⟩
            simp [hwritten] at hk
          simp [h.holders, hfirst]
        | some w => simp [hindex, hwritten]
      · have hne : ref.index ≠ i.index := fun he => hij (index_injective (he.symm.trans hindex))
        simp [Function.update_of_ne hij, h.holders, hne]
    · intro i
      simp only [verifiedAt_snoc, exists_or, ← h.usable]
      by_cases hij : i = j
      · subst hij
        by_cases hverifies : (fetch refs.length).Verifies H ref
        · simp [hverifies, hindex]
        · simp [hverifies, hindex]
      · have hne : ref.index ≠ i.index := fun he => hij (index_injective (he.symm.trans hindex))
        by_cases hverifies : (fetch refs.length).Verifies H ref
        · simp [hverifies, hne, Function.update_of_ne hij]
        · simp [hverifies, hne]
    · rw [verifiedCount_snoc, h.recovered]
      simp [hindex, lt_kTotalShards]

theorem fetchShards_follows (refs : List ShardRef) :
    (fetchShards H fetch 0 refs .start).Follows H fetch refs := by
  induction refs using List.reverseRecOn with
  | nil =>
    constructor
    · simp [fetchShards, Recovered.start, LastWrites]
    · simp [fetchShards, Recovered.start, VerifiedAt]
    · rfl
  | append_singleton refs ref ih =>
    rw [fetchShards_snoc, Nat.zero_add]
    exact ih.step ref

/-- A line of the shard is verified, and the answer that is the last to write to its file, either to
a later line or because the file was not read to its end, leaves bytes under no hash that the
manifest lists for the shard. -/
def Spoiled (H : Sha256) (fetch : ℕ → Fetch) (refs : List ShardRef) : Prop :=
  ∃ (i : Shard) (j k : ℕ) (c : Bytes), (j < k ∨ (fetch j).hash ≠ .done) ∧
    VerifiedAt H fetch refs i j ∧ LastWrites fetch refs i k c ∧
    ∀ ref ∈ refs, ref.index = i.index → H.hex c ≠ ref.chunkId

theorem isSome_written {f : Fetch} (hconn : f.connects = true) (hfound : f.found = true) :
    f.written.isSome := by
  rw [Fetch.written, if_neg (by simp [hconn])]
  apply isSome_of_getChunk
  unfold Fetch.found at hfound
  split at hfound
  · contradiction
  · next found heq => rw [heq, hfound]

theorem le_of_verifiedAt {j : ℕ} (hj : VerifiedAt H fetch refs i j)
    (hk : LastWrites fetch refs i k c) : j ≤ k := by
  obtain ⟨ref, href, hindex, hconn, hfound, -⟩ := hj
  obtain ⟨-, -, -, -, hlast⟩ := hk
  by_contra hlt
  have hnone := hlast j ref (by omega) href hindex
  have hsome := isSome_written hconn hfound
  simp [hnone] at hsome

theorem hex_of_verifiedAt (hk : VerifiedAt H fetch refs i k) (hlast : LastWrites fetch refs i k c)
    (hhash : (fetch k).hash = .done) :
    ∃ ref ∈ refs, ref.index = i.index ∧ H.hex c = ref.chunkId := by
  obtain ⟨ref, href, hindex, -, -, hid⟩ := hk
  obtain ⟨-, -, -, hwritten, -⟩ := hlast
  rw [hhash, hwritten] at hid
  exact ⟨ref, List.mem_of_getElem? href, hindex, hid⟩

/-- Every file handed to the joiner has a hash listed for its shard, exactly when fewer than two
lines are verified, so that it is not called, or no verified file is spoiled. -/
theorem handed_verified_iff (H : Sha256) (fetch : ℕ → Fetch) (m : Manifest) :
    (∀ files, handed H fetch m = some files → ∀ i c, files i = some c →
      ∃ ref ∈ m.shards, ref.index = i.index ∧ H.hex c = ref.chunkId) ↔
    verifiedCount H fetch m.shards < Config.kDataShards ∨ ¬ Spoiled H fetch m.shards := by
  have hfollows := @fetchShards_follows H fetch m.shards
  simp only [handed, hfollows.recovered]
  by_cases hfew : verifiedCount H fetch m.shards < Config.kDataShards
  · simp [hfew]
  · simp only [hfew, ↓reduceIte, Option.some.injEq, forall_eq', Recovered.files, false_or]
    constructor
    · rintro hall ⟨i, j, k, c, -, hj, hk, hnone⟩
      obtain ⟨ref, href, hindex, hhex⟩ := hall i c (by
        rw [if_pos ((hfollows.usable i).mpr ⟨j, hj⟩)]
        exact (hfollows.holders i c).mpr ⟨k, hk⟩)
      exact hnone ref href hindex hhex
    · intro hnot i c hfile
      split_ifs at hfile with husable
      obtain ⟨j, hj⟩ := (hfollows.usable i).mp husable
      obtain ⟨k, hk⟩ := (hfollows.holders i c).mp hfile
      by_contra hnone
      push Not at hnone
      refine hnot ⟨i, j, k, c, ?_, hj, hk, hnone⟩
      rcases (le_of_verifiedAt hj hk).lt_or_eq with hlt | rfl
      · exact .inl hlt
      · right
        intro hhash
        obtain ⟨ref, href, hindex, hhex⟩ := hex_of_verifiedAt hj hk hhash
        exact hnone ref href hindex hhex

def repeatedManifest : Manifest :=
  { manifestOf sampleHash sampleUpload sampleRoute [.d0, .d1] with
    shards := (manifestOf sampleHash sampleUpload sampleRoute [.d0, .d1]).shards ++
      [⟨0, chunkId sampleHash sampleUpload .d0, ascii "peer2:5050"⟩] }

def repeatedFetch : ℕ → Fetch
  | 0 => ⟨true, sendLine (ascii "DATA 2") ++ [1, 2], .done, .done⟩
  | 1 => ⟨true, sendLine (ascii "DATA 2") ++ [3, 0], .done, .done⟩
  | _ => ⟨true, sendLine (ascii "DATA 2") ++ [9, 9], .done, .done⟩

/-- The bytes of the last peer are discarded, but they stand where the verified shard stood, and
become the file. -/
theorem handed_repeated :
    Manifest.read repeatedManifest.text = .ok repeatedManifest ∧
    ((handed sampleHash repeatedFetch repeatedManifest).bind fun files => files .d0) =
      some [9, 9] ∧
    (∀ ref ∈ repeatedManifest.shards, sampleHash.hex [9, 9] ≠ ref.chunkId) ∧
    rebuildStream sampleHash JoinStorage.buffered repeatedFetch repeatedManifest =
      .ok [9, 9, 3] := by
  refine ⟨?_, ?_, ?_, ?_⟩
  · decide +kernel
  · decide +kernel
  · decide +kernel
  · decide +kernel

end PersonalCloud
