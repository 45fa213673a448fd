import PersonalCloud.Core.Erasure
import PersonalCloud.Library.OutStream
import PersonalCloud.Library.Slices

/-! Splitting a sealed stream into four shard files and rebuilding it from two of them. Error
texts that end in a path are given without it. -/
namespace PersonalCloud

/-- Reads `want` bytes of what is left of a file, zero-filling past its end. -/
def readPadded (rest : Bytes) (want : ℕ) : Bytes × Bytes :=
  (rest.take want ++ List.replicate (want - (rest.take want).length) 0, rest.drop want)

/-- The slice loop of the splitter; `a` and `b` are the unread parts of the two readers. -/
def splitLoop : List ℕ → Bytes → Bytes → (Shard → Bytes) → Shard → Bytes
  | [], _, _, out => out
  | n :: ns, a, b, out =>
      let x := readPadded a n
      let y := readPadded b n
      splitLoop ns x.2 y.2 fun i => out i ++ shardOf x.1 y.1 i

/-- The four shards and the shard size, computed in slices of the given length. -/
def splitStreamBy (slice : ℕ) (stream : Bytes) : (Shard → Bytes) × ℕ :=
  let half := (stream.length + 1) / 2
  (splitLoop (Slices.lengths slice half) stream (stream.drop half) fun _ => [], half)

def splitStream (stream : Bytes) : (Shard → Bytes) × ℕ :=
  splitStreamBy Config.kIoBufferSize stream

/-- What local storage does while a stream is rebuilt: the opens, the reads of slice `k`, the
seek and the write of either half in slice `k`, the close of the output and its trim. -/
structure JoinStorage where
  opensInputs : Bool
  opensOutput : Bool
  reads : ℕ → Bool
  seekFirst : ℕ → FileEvent
  writeFirst : ℕ → FileEvent
  seekSecond : ℕ → FileEvent
  writeSecond : ℕ → FileEvent
  closing : FileEvent
  trims : Bool

/-- Storage on which nothing fails, apart perhaps from the final close. -/
structure JoinStorage.Steady (J : JoinStorage) : Prop where
  opensInputs : J.opensInputs = true
  opensOutput : J.opensOutput = true
  reads : ∀ k, J.reads k = true
  seekFirst : ∀ k, (J.seekFirst k).ok = true
  writeFirst : ∀ k, (J.writeFirst k).ok = true
  seekSecond : ∀ k, (J.seekSecond k).ok = true
  writeSecond : ∀ k, (J.writeSecond k).ok = true
  trims : J.trims = true

structure JoinStorage.Sound (J : JoinStorage) : Prop extends J.Steady where
  closing : J.closing.ok = true

/-- The first data shard lands at `done` and the second one `shardSize` further along, so one
output file is filled from two offsets. -/
def storeSlice (J : JoinStorage) (shardSize k done : ℕ) (d0 d1 : Bytes) (out : OutStream UInt8) :
    OutStream UInt8 :=
  let out := (out.seek (J.seekFirst k) done).write (J.writeFirst k) d0
  (out.seek (J.seekSecond k) (shardSize + done)).write (J.writeSecond k) d1

/-- The slice loop of the joiner: slice `k` starts at offset `done` of either half. -/
def joinLoop (J : JoinStorage) (pair : ShardPair) (shardSize : ℕ) :
    List ℕ → ℕ → ℕ → Bytes → Bytes → OutStream UInt8 → Except String (OutStream UInt8)
  | [], _, _, _, _, out => .ok out
  | n :: ns, k, done, a, b, out =>
      if J.reads k = false ∨ (a.take n).length ≠ n ∨ (b.take n).length ≠ n then
        .error "shard ended earlier than its recorded length"
      else
        match reconstruct pair (a.take n) (b.take n) with
        | none => .error "no recovery rule for the available shard combination"
        | some (d0, d1) =>
            let out := storeSlice J shardSize k done d0 d1 out
            if out.good = false then .error "write failed while rebuilding the stream"
            else joinLoop J pair shardSize ns (k + 1) (done + n) (a.drop n) (b.drop n) out

def resizeFile (f : Bytes) (n : ℕ) : Bytes := f.take n ++ List.replicate (n - f.length) 0

/-- The shards usable for a join: existing files of the recorded length. -/
def shardPresent (files : Shard → Option Bytes) (shardSize : ℕ) (i : Shard) : Bool :=
  match files i with
  | none => false
  | some c => decide (c.length = shardSize)

/-- Rebuilds a stream from the shard files; `none` stands for an empty path or a missing file.
The close of the output is not checked, as in the source. -/
def joinShardsBy (slice : ℕ) (J : JoinStorage) (files : Shard → Option Bytes)
    (shardSize streamSize : ℕ) : Except String Bytes :=
  match choosePair (shardPresent files shardSize) with
  | none => .error "need at least 2 of the 4 shards to rebuild this file"
  | some pair =>
      if J.opensInputs = false then .error "cannot read the selected shards"
      else if J.opensOutput = false then .error "cannot write"
      else
        match joinLoop J pair shardSize (Slices.lengths slice shardSize) 0 0
            ((files pair.a).getD []) ((files pair.b).getD []) OutStream.opened with
        | .error e => .error e
        | .ok out =>
            if J.trims = false then
              .error "cannot trim the rebuilt stream to its original length"
            else .ok (resizeFile (out.close J.closing) streamSize)

def joinShards (J : JoinStorage) (files : Shard → Option Bytes) (shardSize streamSize : ℕ) :
    Except String Bytes :=
  joinShardsBy Config.kIoBufferSize J files shardSize streamSize

def padTo (rest : Bytes) (n : ℕ) : Bytes := (readPadded rest n).1

theorem padTo_length (rest : Bytes) (n : ℕ) : (padTo rest n).length = n := by
  simp only [padTo, readPadded, List.length_append, List.length_take, List.length_replicate]
  omega

theorem padTo_add (rest : Bytes) (m n : ℕ) :
    padTo rest (m + n) = padTo rest m ++ padTo (rest.drop m) n := by
  simp only [padTo, readPadded]
  rcases Nat.le_total rest.length m with h | h
  · have hdrop : rest.drop m = [] := List.drop_eq_nil_of_le h
    rw [hdrop, List.take_of_length_le h, List.take_of_length_le (by omega)]
    have hadd : m + n - rest.length = (m - rest.length) + n := by omega
    simp [hadd, List.replicate_append_replicate]
  · have hlen : (rest.take m).length = m := by simp [h]
    rw [List.take_add, List.length_append, hlen]
    have hz : m - m = 0 := Nat.sub_self m
    have hsub : m + n - (m + (List.take n (List.drop m rest)).length) =
        n - (List.take n (List.drop m rest)).length := by omega
    rw [hsub, hz]
    simp

theorem shardOf_append {a b c d : Bytes} (h : a.length = b.length) (i : Shard) :
    shardOf (a ++ c) (b ++ d) i = shardOf a b i ++ shardOf c d i := by
  cases i
  · rfl
  · rfl
  · exact List.zipWith_append h
  · exact List.zipWith_append h

/-- Whatever the slices, the splitter produces the shards of the whole padded halves. -/
theorem splitLoop_eq (ns : List ℕ) (a b : Bytes) (out : Shard → Bytes) :
    splitLoop ns a b out = fun i => out i ++ shardOf (padTo a ns.sum) (padTo b ns.sum) i := by
  induction ns generalizing a b out with
  | nil =>
    funext i
    cases i <;> simp [splitLoop, padTo, readPadded, shardOf, makeParity0, makeParity1, xorInto]
  | cons n ns ih =>
    funext i
    have hl : (padTo a n).length = (padTo b n).length := by simp [padTo_length]
    simp only [splitLoop, ih, List.sum_cons, padTo_add, shardOf_append hl, List.append_assoc]
    rfl

def firstHalf (s : Bytes) : Bytes := s.take ((s.length + 1) / 2)

def secondHalf (s : Bytes) : Bytes := padTo (s.drop ((s.length + 1) / 2)) ((s.length + 1) / 2)

theorem firstHalf_length (s : Bytes) : (firstHalf s).length = (s.length + 1) / 2 := by
  simp only [firstHalf, List.length_take]
  omega

theorem secondHalf_length (s : Bytes) : (secondHalf s).length = (s.length + 1) / 2 :=
  padTo_length _ _

theorem halves_length (s : Bytes) : (firstHalf s).length = (secondHalf s).length := by
  rw [firstHalf_length, secondHalf_length]

private theorem padTo_of_le {s : Bytes} {n : ℕ} (h : n ≤ s.length) : padTo s n = s.take n := by
  simp [padTo, readPadded, h]

theorem splitStreamBy_eq {slice : ℕ} (hs : 0 < slice) (s : Bytes) :
    splitStreamBy slice s = (shardOf (firstHalf s) (secondHalf s), (s.length + 1) / 2) := by
  have hle : (s.length + 1) / 2 ≤ s.length := by omega
  simp only [splitStreamBy, splitLoop_eq, Slices.lengths_sum hs, List.nil_append, padTo_of_le hle,
    firstHalf, secondHalf]

theorem splitStream_eq (s : Bytes) :
    splitStream s = (shardOf (firstHalf s) (secondHalf s), (s.length + 1) / 2) :=
  splitStreamBy_eq (by decide) s

/-- The halves side by side are the stream and, for an odd length, one padding byte. -/
theorem halves_append (s : Bytes) :
    firstHalf s ++ secondHalf s = s ++ List.replicate (2 * ((s.length + 1) / 2) - s.length) 0 := by
  have hle : (s.drop ((s.length + 1) / 2)).length ≤ (s.length + 1) / 2 := by
    rw [List.length_drop]
    omega
  have hsub : (s.length + 1) / 2 - (s.length - (s.length + 1) / 2) =
      2 * ((s.length + 1) / 2) - s.length := by omega
  rw [firstHalf, secondHalf, padTo, readPadded, List.take_of_length_le hle, List.length_drop, hsub,
    ← List.append_assoc, List.take_append_drop]

theorem resize_halves (s : Bytes) : resizeFile (firstHalf s ++ secondHalf s) s.length = s := by
  simp [resizeFile, halves_append]

theorem shardOf_slice (d0 d1 : Bytes) (i : Shard) (m n : ℕ) :
    ((shardOf d0 d1 i).drop m).take n = shardOf ((d0.drop m).take n) ((d1.drop m).take n) i := by
  cases i <;> simp [shardOf, makeParity0, makeParity1, xorInto, List.take_zipWith, List.drop_zipWith]

/-- The output file once the first `done` bytes of either half are stored. -/
def joinLayout (d0 d1 : Bytes) (size done : ℕ) : Bytes :=
  if done = 0 then [] else d0.take done ++ (List.replicate (size - done) 0 ++ d1.take done)

/-- The output file when the slice of the first half is stored as well. -/
private def halfLayout (d0 d1 : Bytes) (size done n : ℕ) : Bytes :=
  d0.take (done + n) ++ if done = 0 then [] else List.replicate (size - done - n) 0 ++ d1.take done

private theorem slice_ne_nil {d : Bytes} {done n : ℕ} (hn : 0 < n) (h : done + n ≤ d.length) :
    (d.drop done).take n ≠ [] := by
  intro he
  have := congrArg List.length he
  simp only [List.length_take, List.length_drop, List.length_nil] at this
  omega

private theorem patch_first {d0 d1 : Bytes} {size done n : ℕ} (h0 : d0.length = size)
    (hn : 0 < n) (hle : done + n ≤ size) :
    filePatch (joinLayout d0 d1 size done) done ((d0.drop done).take n) =
      halfLayout d0 d1 size done n := by
  have hx := slice_ne_nil hn (by omega : done + n ≤ d0.length)
  unfold joinLayout halfLayout
  by_cases hd : done = 0
  · subst hd
    rw [if_pos rfl, if_pos rfl, filePatch_gap [] _ (Nat.zero_le 0) hx]
    simp
  · have hlen : (d0.take done).length = done := by
      rw [List.length_take]
      omega
    have hsplit : List.replicate (size - done) (0 : UInt8) =
        List.replicate n 0 ++ List.replicate (size - done - n) 0 := by
      rw [List.replicate_append_replicate]
      congr 1
      omega
    have hmid := filePatch_middle (d0.take done) (List.replicate n 0)
      (List.replicate (size - done - n) 0 ++ d1.take done) ((d0.drop done).take n)
      (by simp only [List.length_take, List.length_drop, List.length_replicate]; omega)
    rw [hlen] at hmid
    rw [if_neg hd, if_neg hd, hsplit, List.append_assoc, hmid, List.take_add]
    simp

private theorem patch_second {d0 d1 : Bytes} {size done n : ℕ} (h0 : d0.length = size)
    (h1 : d1.length = size) (hn : 0 < n) (hle : done + n ≤ size) :
    filePatch (halfLayout d0 d1 size done n) (size + done) ((d1.drop done).take n) =
      joinLayout d0 d1 size (done + n) := by
  have hx := slice_ne_nil hn (by omega : done + n ≤ d1.length)
  have hlen0 : (d0.take (done + n)).length = done + n := by
    rw [List.length_take]
    omega
  unfold halfLayout joinLayout
  by_cases hd : done = 0
  · subst hd
    have hfill : (default : UInt8) = 0 := rfl
    rw [if_pos rfl, if_neg (by omega), List.append_nil, filePatch_gap _ _ (by omega) hx, hlen0]
    simp [hfill]
  · have hlen1 : (d1.take done).length = done := by
      rw [List.length_take]
      omega
    have hlen : (d0.take (done + n) ++
        (List.replicate (size - done - n) 0 ++ d1.take done)).length = size + done := by
      simp only [List.length_append, hlen0, hlen1, List.length_replicate]
      omega
    rw [if_neg hd, if_neg (by omega), filePatch_gap _ _ hlen.le hx, hlen, List.take_add (l := d1),
      Nat.sub_self, Nat.sub_add_eq]
    simp

variable {J : JoinStorage} {d0 d1 : Bytes} {size : ℕ}

/-- The stream in the middle of the last slice: all of the first half and what came before of
the second are handed over. -/
private theorem halfLayout_last (h0 : d0.length = size) {done n : ℕ} (h : done + n = size) :
    halfLayout d0 d1 size done n = d0 ++ d1.take done := by
  unfold halfLayout
  have hz : size - done - n = 0 := by omega
  rw [h, ← h0, List.take_length]
  by_cases hd : done = 0
  · simp [hd]
  · rw [h0, hz]
    simp [hd]

/-- A slice that leaves the output good extends the layout. -/
private theorem storeSlice_eq (h0 : d0.length = size) (h1 : d1.length = size) {k done n : ℕ}
    (hn : 0 < n) (hle : done + n ≤ size) {out : OutStream UInt8}
    (hview : out.view = joinLayout d0 d1 size done)
    (h : (storeSlice J size k done ((d0.drop done).take n) ((d1.drop done).take n) out).good =
      true) :
    storeSlice J size k done ((d0.drop done).take n) ((d1.drop done).take n) out =
      (⟨halfLayout d0 d1 size done n, size + done, [], true⟩ : OutStream UInt8).write
        (J.writeSecond k) ((d1.drop done).take n) ∧
    (storeSlice J size k done ((d0.drop done).take n) ((d1.drop done).take n) out).view =
      joinLayout d0 d1 size (done + n) := by
  simp only [storeSlice] at h ⊢
  have hs2 := (OutStream.good_of_write h).1
  have hw1 := (OutStream.good_of_seek hs2).1
  have hfirst := OutStream.seek_write_view hw1
  have hsecond := OutStream.seek_write_view h
  rw [hview, patch_first h0 hn hle] at hfirst
  rw [hfirst, patch_second h0 h1 hn hle] at hsecond
  refine ⟨?_, hsecond⟩
  rw [OutStream.seek_eq hs2, hfirst]

private theorem storeSlice_good (hJ : J.Steady) (k done : ℕ) (x y : Bytes)
    {out : OutStream UInt8} (h : out.good = true) :
    (storeSlice J size k done x y out).good = true := by
  have hw := OutStream.write_good x (OutStream.seek_good done h (hJ.seekFirst k)) (hJ.writeFirst k)
  exact OutStream.write_good y (OutStream.seek_good (size + done) hw (hJ.seekSecond k))
    (hJ.writeSecond k)

private theorem shard_drop_take_length (h0 : d0.length = size) (h1 : d1.length = size) (i : Shard)
    {done n : ℕ} (h : done + n ≤ size) : (((shardOf d0 d1 i).drop done).take n).length = n := by
  have hl := shardOf_length (h0.trans h1.symm) i
  rw [List.length_take, List.length_drop, hl]
  omega

private theorem slices_reconstruct (h0 : d0.length = size) (h1 : d1.length = size)
    {pair : ShardPair} (hp : pair ∈ pairOrder) (done n : ℕ) :
    reconstruct pair (((shardOf d0 d1 pair.a).drop done).take n)
      (((shardOf d0 d1 pair.b).drop done).take n) =
      some ((d0.drop done).take n, (d1.drop done).take n) := by
  rw [shardOf_slice, shardOf_slice]
  exact reconstruct_shardOf (by simp [h0, h1]) hp

private theorem joinLoop_cons (h0 : d0.length = size) (h1 : d1.length = size) {pair : ShardPair}
    (hp : pair ∈ pairOrder) {n : ℕ} (ns : List ℕ) (k : ℕ) {done : ℕ} (hle : done + n ≤ size)
    (out : OutStream UInt8) :
    joinLoop J pair size (n :: ns) k done ((shardOf d0 d1 pair.a).drop done)
      ((shardOf d0 d1 pair.b).drop done) out =
      if J.reads k = false then .error "shard ended earlier than its recorded length"
      else
        let next := storeSlice J size k done ((d0.drop done).take n) ((d1.drop done).take n) out
        if next.good = false then .error "write failed while rebuilding the stream"
        else joinLoop J pair size ns (k + 1) (done + n) ((shardOf d0 d1 pair.a).drop (done + n))
          ((shardOf d0 d1 pair.b).drop (done + n)) next := by
  simp only [joinLoop, slices_reconstruct h0 h1 hp, shard_drop_take_length h0 h1 _ hle,
    List.drop_drop, ne_eq, not_true_eq_false, or_false]

/-- What a successful loop leaves: everything is handed to the output, and the state is that
right after the write of the second half's last slice. -/
theorem joinLoop_ok (h0 : d0.length = size) (h1 : d1.length = size) {pair : ShardPair}
    (hp : pair ∈ pairOrder) {ns : List ℕ} {k done : ℕ} {out out' : OutStream UInt8}
    (hpos : ∀ n ∈ ns, 0 < n) (hsum : done + ns.sum = size)
    (hview : out.view = joinLayout d0 d1 size done) (hne : ns ≠ [])
    (h : joinLoop J pair size ns k done ((shardOf d0 d1 pair.a).drop done)
      ((shardOf d0 d1 pair.b).drop done) out = .ok out') :
    out'.good = true ∧ ∃ last, ns.getLast? = some last ∧
      out' = (⟨d0 ++ d1.take (size - last), size + (size - last), [], true⟩ :
        OutStream UInt8).write (J.writeSecond (k + ns.length - 1)) (d1.drop (size - last)) := by
  induction ns generalizing k done out with
  | nil => exact absurd rfl hne
  | cons n ns ih =>
    have hn : 0 < n := hpos n (by simp)
    simp only [List.sum_cons] at hsum
    have hle : done + n ≤ size := by omega
    rw [joinLoop_cons h0 h1 hp ns k hle] at h
    split_ifs at h with hread
    simp only at h
    split_ifs at h with hbad
    simp only [Bool.not_eq_false] at hbad
    obtain ⟨hstate, hnext⟩ := storeSlice_eq h0 h1 hn hle hview hbad
    cases ns with
    | nil =>
      simp only [joinLoop, Except.ok.injEq] at h
      simp only [List.sum_nil, Nat.add_zero] at hsum
      have hdone : size - n = done := by omega
      have htake : (d1.drop done).take n = d1.drop done :=
        List.take_of_length_le (by rw [List.length_drop]; omega)
      refine ⟨h ▸ hbad, n, rfl, ?_⟩
      rw [← h, hstate, halfLayout_last h0 hsum, htake, hdone]
      simp
    | cons m ns =>
      have hrest := ih (fun x hx => hpos x (by simp [hx])) (by omega) hnext (by simp) h
      obtain ⟨hg, last, hlast, heq⟩ := hrest
      refine ⟨hg, last, by simpa using hlast, ?_⟩
      rw [heq]
      congr 2
      simp only [List.length_cons]
      omega

theorem joinLoop_isOk (hJ : J.Steady) (h0 : d0.length = size) (h1 : d1.length = size)
    {pair : ShardPair} (hp : pair ∈ pairOrder) {ns : List ℕ} {k done : ℕ}
    {out : OutStream UInt8} (hsum : done + ns.sum = size) (hgood : out.good = true) :
    ∃ out', joinLoop J pair size ns k done ((shardOf d0 d1 pair.a).drop done)
      ((shardOf d0 d1 pair.b).drop done) out = .ok out' := by
  induction ns generalizing k done out with
  | nil => exact ⟨out, rfl⟩
  | cons n ns ih =>
    simp only [List.sum_cons] at hsum
    have hnext : (storeSlice J size k done ((d0.drop done).take n) ((d1.drop done).take n)
        out).good = true := storeSlice_good hJ k done _ _ hgood
    rw [joinLoop_cons h0 h1 hp ns k (by omega)]
    simp only [hJ.reads k, hnext, Bool.true_eq_false, ↓reduceIte]
    exact ih (by omega) hnext

/-- How many bytes of the second half are on disk after the close: a failing close loses what
the last write had left in the buffer and the close did not hand over. -/
def JoinStorage.stored (J : JoinStorage) (slice shardSize : ℕ) : ℕ :=
  if J.closing.ok then shardSize
  else
    match (Slices.lengths slice shardSize).getLast? with
    | none => shardSize
    | some last =>
        shardSize - last + min last ((J.writeSecond
          ((Slices.lengths slice shardSize).length - 1)).count + J.closing.count)

/-- Every file of the recorded length is the shard it stands for. -/
def IntactShards (files : Shard → Option Bytes) (d0 d1 : Bytes) : Prop :=
  ∀ i c, files i = some c → c.length = d0.length → c = shardOf d0 d1 i

private theorem files_of_present {files : Shard → Option Bytes} (hfiles : IntactShards files d0 d1)
    (h0 : d0.length = size) {i : Shard} (h : shardPresent files size i = true) :
    (files i).getD [] = shardOf d0 d1 i := by
  unfold shardPresent at h
  split at h
  · simp at h
  · next c hc =>
    have hl : c.length = d0.length := (of_decide_eq_true h).trans h0.symm
    simpa [hc] using hfiles i c hc hl

private theorem joinLoop_close (h0 : d0.length = size) (h1 : d1.length = size) {pair : ShardPair}
    (hp : pair ∈ pairOrder) {slice : ℕ} (hs : 0 < slice) {out : OutStream UInt8}
    (h : joinLoop J pair size (Slices.lengths slice size) 0 0 (shardOf d0 d1 pair.a)
      (shardOf d0 d1 pair.b) OutStream.opened = .ok out) :
    out.close J.closing = d0 ++ d1.take (J.stored slice size) := by
  rcases Nat.eq_zero_or_pos size with hz | hz
  · have hd0 : d0 = [] := List.eq_nil_of_length_eq_zero (h0.trans hz)
    have hd1 : d1 = [] := List.eq_nil_of_length_eq_zero (h1.trans hz)
    rw [hz, Slices.lengths_zero] at h
    simp only [joinLoop, Except.ok.injEq] at h
    rw [← h, OutStream.close_of_buffer_nil _ rfl, hd0, hd1]
    simp [OutStream.opened]
  · have hview : (OutStream.opened : OutStream UInt8).view = joinLayout d0 d1 size 0 := rfl
    rw [← List.drop_zero (l := shardOf d0 d1 pair.a),
      ← List.drop_zero (l := shardOf d0 d1 pair.b)] at h
    obtain ⟨hg, last, hlast, heq⟩ := joinLoop_ok h0 h1 hp (Slices.lengths_pos hs size)
      (by rw [Slices.lengths_sum hs, Nat.zero_add]) hview (Slices.lengths_ne_nil hz) h
    have hle : last ≤ size := by
      have hmem := List.mem_of_getLast? hlast
      have := List.single_le_sum (fun _ _ => Nat.zero_le _) last hmem
      rwa [Slices.lengths_sum hs] at this
    have hlen : (d0 ++ d1.take (size - last)).length = size + (size - last) := by
      rw [List.length_append, List.length_take]
      omega
    have hwrite := hg
    rw [heq] at hwrite
    rw [heq, OutStream.close_write (OutStream.good_of_write hwrite).2]
    set m := if J.closing.ok then (d1.drop (size - last)).length else
      (J.writeSecond (0 + (Slices.lengths slice size).length - 1)).count + J.closing.count with hm
    have hpatch : filePatch (d0 ++ d1.take (size - last)) (size + (size - last))
        ((d1.drop (size - last)).take m) = d0 ++ d1.take (size - last + m) := by
      by_cases hx : (d1.drop (size - last)).take m = []
      · rw [hx, filePatch_nil, List.take_add, hx, List.append_nil]
      · rw [filePatch_gap _ _ hlen.le hx, hlen, List.take_add]
        simp
    rw [hpatch]
    congr 1
    have hstored : J.stored slice size = size - last + min last m := by
      unfold JoinStorage.stored
      rw [hm, hlast, List.length_drop, h1]
      split_ifs
      · omega
      · simp
    rw [hstored]
    rcases Nat.le_total m last with hml | hml
    · rw [Nat.min_eq_right hml]
    · rw [Nat.min_eq_left hml, List.take_of_length_le (by omega), List.take_of_length_le (by omega)]

/-- A join over intact shards that reports success has written the first half, the stored part
of the second, and zeros up to the recorded length. -/
theorem joinShardsBy_ok (h0 : d0.length = size) (h1 : d1.length = size) {slice : ℕ}
    (hs : 0 < slice) {files : Shard → Option Bytes} (hfiles : IntactShards files d0 d1)
    {streamSize : ℕ} {c : Bytes} (h : joinShardsBy slice J files size streamSize = .ok c) :
    c = resizeFile (d0 ++ d1.take (J.stored slice size)) streamSize := by
  unfold joinShardsBy at h
  split at h
  · contradiction
  · next pair hpair =>
    obtain ⟨hp, ha, hb⟩ := choosePair_sound hpair
    rw [files_of_present hfiles h0 ha, files_of_present hfiles h0 hb] at h
    split_ifs at h with _ _ htrims
    all_goals split at h
    · contradiction
    · contradiction
    · contradiction
    · next out hout => rw [← Except.ok.inj h, joinLoop_close h0 h1 hp hs hout]

/-- What the close loses of the second half is all zeros, as the trim fills it in. -/
def JoinStorage.Keeps (J : JoinStorage) (s : Bytes) : Prop :=
  ∀ b ∈ (secondHalf s).drop (J.stored Config.kIoBufferSize ((s.length + 1) / 2)), b = 0

instance (J : JoinStorage) (s : Bytes) : Decidable (J.Keeps s) := List.decidableBAll _ _

theorem JoinStorage.keeps_of_closing {J : JoinStorage} (h : J.closing.ok = true) (s : Bytes) :
    J.Keeps s := by
  rw [JoinStorage.Keeps, JoinStorage.stored, if_pos h, List.drop_of_length_le (secondHalf_length s).le]
  simp

theorem resizeFile_zeros (f : Bytes) (n k : ℕ) :
    resizeFile (f ++ List.replicate k 0) n = resizeFile f n := by
  simp only [resizeFile, List.take_append, List.length_append, List.length_replicate,
    List.take_replicate, List.append_assoc, List.replicate_append_replicate]
  congr 2
  omega

/-- The trimmed file is the stream exactly if the bytes missing from the second half are zero. -/
theorem resize_half_iff (s : Bytes) (n : ℕ) :
    resizeFile (firstHalf s ++ (secondHalf s).take n) s.length = s ↔
      ∀ b ∈ (secondHalf s).drop n, b = 0 := by
  constructor
  · intro h b hb
    set f := firstHalf s ++ (secondHalf s).take n with hf
    have hfull : f ++ (secondHalf s).drop n = resizeFile f s.length ++
        List.replicate (2 * ((s.length + 1) / 2) - s.length) 0 := by
      rw [h, hf, List.append_assoc, List.take_append_drop, halves_append]
    rw [← List.take_append_drop s.length f, List.append_assoc, List.take_append_drop, resizeFile,
      List.append_assoc, List.append_cancel_left_eq, List.replicate_append_replicate] at hfull
    exact List.eq_of_mem_replicate (hfull ▸ List.mem_append_right _ hb)
  · intro h
    have hzeros : (secondHalf s).drop n = List.replicate ((secondHalf s).drop n).length 0 :=
      List.eq_replicate_of_mem h
    rw [← resizeFile_zeros _ _ ((secondHalf s).drop n).length, ← hzeros, List.append_assoc,
      List.take_append_drop, resize_halves]

theorem joinShardsBy_isOk (hJ : J.Steady) (h0 : d0.length = size) (h1 : d1.length = size)
    {slice : ℕ} (hs : 0 < slice) {files : Shard → Option Bytes}
    (hfiles : IntactShards files d0 d1) {i j : Shard} (hne : i ≠ j)
    (hi : files i = some (shardOf d0 d1 i)) (hj : files j = some (shardOf d0 d1 j))
    (streamSize : ℕ) : ∃ c, joinShardsBy slice J files size streamSize = .ok c := by
  have hpresent {i : Shard} (hi : files i = some (shardOf d0 d1 i)) :
      shardPresent files size i = true := by
    simp [shardPresent, hi, shardOf_length (h0.trans h1.symm), h0]
  obtain ⟨pair, hpair⟩ := Option.isSome_iff_exists.mp
    (choosePair_isSome hne (hpresent hi) (hpresent hj))
  obtain ⟨hp, ha, hb⟩ := choosePair_sound hpair
  have hsum : 0 + (Slices.lengths slice size).sum = size := by
    rw [Slices.lengths_sum hs, Nat.zero_add]
  have hgood : (OutStream.opened : OutStream UInt8).good = true := rfl
  obtain ⟨out, hout⟩ := joinLoop_isOk (k := 0) hJ h0 h1 hp hsum hgood
  simp only [List.drop_zero] at hout
  unfold joinShardsBy
  simp only [hpair, hJ.opensInputs, hJ.opensOutput, hJ.trims, Bool.true_eq_false, ↓reduceIte,
    files_of_present hfiles h0 ha, files_of_present hfiles h0 hb, hout]
  exact ⟨_, rfl⟩

/-- What the files given to a join may be: the shard itself, no file, or one of another length. -/
def UsableOrAbsent (files : Shard → Option Bytes) (shards : Shard → Bytes) (shardSize : ℕ) : Prop :=
  ∀ i, files i = some (shards i) ∨ files i = none ∨ ∃ c, files i = some c ∧ c.length ≠ shardSize

theorem UsableOrAbsent.intactShards {files : Shard → Option Bytes}
    (h : UsableOrAbsent files (shardOf d0 d1) d0.length) : IntactShards files d0 d1 := by
  intro i c hc hlen
  rcases h i with hi | hi | ⟨b, hb, hne⟩
  · exact Option.some.inj (hc.symm.trans hi)
  · rw [hi] at hc
    contradiction
  · rw [hb] at hc
    exact absurd (Option.some.inj hc ▸ hlen) hne

theorem JoinStorage.Sound.stored_eq (hJ : J.Sound) (slice shardSize : ℕ) :
    J.stored slice shardSize = shardSize := by
  rw [JoinStorage.stored, if_pos hJ.closing]

/-- Two shards of a stream and nothing else of their length are enough to write it back. -/
theorem joinShardsBy_splitStream (hJ : J.Sound) {slice : ℕ} (hs : 0 < slice) (s : Bytes)
    {files : Shard → Option Bytes}
    (hfiles : IntactShards files (firstHalf s) (secondHalf s)) {i j : Shard} (hne : i ≠ j)
    (hi : files i = some ((splitStream s).1 i)) (hj : files j = some ((splitStream s).1 j)) :
    joinShardsBy slice J files (splitStream s).2 s.length = .ok s := by
  rw [splitStream_eq] at hi hj ⊢
  have h0 := firstHalf_length s
  have h1 := secondHalf_length s
  obtain ⟨c, hc⟩ := joinShardsBy_isOk hJ.toSteady h0 h1 hs hfiles hne hi hj s.length
  rw [hc, joinShardsBy_ok h0 h1 hs hfiles hc, hJ.stored_eq, List.take_of_length_le h1.le,
    resize_halves]

theorem splitStream_length (s : Bytes) (i : Shard) :
    ((splitStream s).1 i).length = (splitStream s).2 := by
  rw [splitStream_eq]
  exact (shardOf_length (halves_length s) i).trans (firstHalf_length s)

/-- Any two shards rebuild the stream, in slices of any length, and the slices make no difference
to the shards or to what is recovered from a pair of them. -/
theorem joinShards_splitStream (s : Bytes) {slice : ℕ} (hs : 0 < slice) (hJ : J.Sound)
    {files : Shard → Option Bytes}
    (hfiles : UsableOrAbsent files (splitStream s).1 (splitStream s).2) {i j : Shard} (hne : i ≠ j)
    (hi : files i = some ((splitStream s).1 i)) (hj : files j = some ((splitStream s).1 j)) :
    (splitStream s).2 = (s.length + 1) / 2 ∧
    (∀ k, ((splitStream s).1 k).length = (s.length + 1) / 2) ∧
    joinShards J files ((s.length + 1) / 2) s.length = .ok s ∧
    splitStreamBy slice s = splitStream s ∧
    joinShardsBy slice J files ((s.length + 1) / 2) s.length = .ok s ∧
    (splitStream s).1 = shardOf (firstHalf s) (secondHalf s) ∧
    ∀ pair ∈ pairOrder, reconstruct pair ((splitStream s).1 pair.a) ((splitStream s).1 pair.b) =
      some (firstHalf s, secondHalf s) := by
  have hsize : (splitStream s).2 = (s.length + 1) / 2 := by rw [splitStream_eq]
  have hshards : (splitStream s).1 = shardOf (firstHalf s) (secondHalf s) := by rw [splitStream_eq]
  have hintact : IntactShards files (firstHalf s) (secondHalf s) := by
    apply UsableOrAbsent.intactShards
    rwa [← hshards, firstHalf_length, ← hsize]
  have hjoin {slice : ℕ} (hs : 0 < slice) :
      joinShardsBy slice J files ((s.length + 1) / 2) s.length = .ok s := by
    rw [← hsize]
    exact joinShardsBy_splitStream hJ hs s hintact hne hi hj
  refine ⟨hsize, ?_, hjoin (by decide), ?_, hjoin hs, hshards, ?_⟩
  · intro k
    rw [splitStream_length, hsize]
  · rw [splitStreamBy_eq hs, splitStream_eq]
  · intro pair hpair
    rw [hshards]
    exact reconstruct_shardOf (halves_length s) hpair

/-- Storage on which every operation succeeds and every write stays in the buffer. -/
def JoinStorage.buffered : JoinStorage where
  opensInputs := true
  opensOutput := true
  reads _ := true
  seekFirst _ := .accept 0
  writeFirst _ := .accept 0
  seekSecond _ := .accept 0
  writeSecond _ := .accept 0
  closing := .accept 0
  trims := true

theorem JoinStorage.buffered_sound : JoinStorage.buffered.Sound where
  opensInputs := rfl
  opensOutput := rfl
  reads _ := rfl
  seekFirst _ := rfl
  writeFirst _ := rfl
  seekSecond _ := rfl
  writeSecond _ := rfl
  closing := rfl
  trims := rfl

/-- Three bytes come back from the two parity shards, one data shard being gone and the other
cut short. -/
theorem joinShards_splitStream_parity :
    let files : Shard → Option Bytes
      | .d0 => none
      | .d1 => some [3]
      | .p0 => some [2, 2]
      | .p1 => some [7, 4]
    joinShards JoinStorage.buffered files 2 3 = .ok [1, 2, 3] := by
  intro files
  have hshards : (splitStream [1, 2, 3]).1 .p0 = [2, 2] ∧ (splitStream [1, 2, 3]).1 .p1 = [7, 4] :=
    by decide +kernel
  have hfiles : UsableOrAbsent files (splitStream [1, 2, 3]).1 (splitStream [1, 2, 3]).2 := by
    intro i
    cases i
    · exact .inr (.inl rfl)
    · exact .inr (.inr ⟨[3], rfl, by decide +kernel⟩)
    · exact .inl (congrArg some hshards.1.symm)
    · exact .inl (congrArg some hshards.2.symm)
  have hne : Shard.p0 ≠ Shard.p1 := by decide
  exact (joinShards_splitStream [1, 2, 3] Nat.one_pos JoinStorage.buffered_sound hfiles
    hne (congrArg some hshards.1.symm) (congrArg some hshards.2.symm)).2.2.1

end PersonalCloud
