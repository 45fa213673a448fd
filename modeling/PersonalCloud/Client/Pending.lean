import PersonalCloud.Client.History

/-! What a distribution to the peers does to the record of an earlier version. The record is
rewritten in place: it is truncated when it is opened, and written line by line. -/
namespace PersonalCloud

open Proto

/-- The whole call. Without four peers, or when the stream cannot be split, nothing is begun. -/
def distributeToPeers (H : Sha256) (u : SealedUpload) (route : Route) (peers : ℕ) (splits : Bool)
    (w : World) (es : List DistEvent) : World × DistPc :=
  if peers ≠ Config.kTotalShards then (w, .finished 1 [])
  else if splits = false then (w, .finished 1 [])
  else distRun H u route w es

def Reads (file : Option Bytes) (m : Manifest) : Prop :=
  ∃ content, file = some content ∧ Manifest.read content = .ok m

section Pending

variable (H : Sha256) (u : SealedUpload) (route : Route)

/-- There is still a record to be read, the old one or all of the new one. -/
def RecordKept (old : Manifest) (x : World × DistPc) : Prop :=
  Reads x.1.pending old ∨ Reads x.1.pending (manifestOf H u route x.2.placed)

/-- A step that writes the record leaves all of it on disk but perhaps the last line break, under a
name that is read back. -/
def WritesWhole (x : World × DistPc) (e : DistEvent) : Prop :=
  ∀ placed, x.2 = .writing placed → u.name.head? ≠ some 32 ∧
    ∀ k, e.cut = some k → (manifestOf H u route placed).text.length ≤ k + 1

/-- The run does not stop between the opening of the record and the end of its write. -/
def WritesThrough (w : World) (es : List DistEvent) : Prop :=
  Machine.Along (fun x e => distStep H u route e x.1 x.2) (WritesWhole H u route) (w, .start) es ∧
    ∀ placed, (distRun H u route w es).2 ≠ .writing placed

variable {H u route}

/-- What the record is while all writes are whole. -/
def DistPc.Whole (H : Sha256) (u : SealedUpload) (route : Route) (before now : Option Bytes) :
    DistPc → Prop
  | .placing _ _ | .opening _ => now = before
  | .writing _ => now = some []
  | .finished _ placed =>
      now = before ∨ u.name.head? ≠ some 32 ∧ ∃ k,
        (manifestOf H u route placed).text.length ≤ k + 1 ∧
          now = some ((manifestOf H u route placed).text.take k)

theorem distStep_whole {e : DistEvent} {w : World} {pc : DistPc} {before : Option Bytes}
    (h : pc.Whole H u route before w.pending) (he : WritesWhole H u route (w, pc) e) :
    (distStep H u route e w pc).2.Whole H u route before
      (distStep H u route e w pc).1.pending := by
  cases pc with
  | placing todo placed =>
    obtain ⟨hpending, ⟨_, _, hnext⟩ | ⟨_, hnext⟩ | ⟨_, hnext⟩⟩ :=
      distStep_unwritten H u route e w todo placed
    · rw [hnext, hpending]
      exact h
    · rw [hnext, hpending]
      exact h
    · rw [hnext, hpending]
      exact .inl h
  | opening placed =>
    simp only [distStep]
    split_ifs
    · exact .inl h
    · rfl
  | writing placed =>
    have hopen : w.pending = some [] := h
    obtain ⟨hhead, hcut⟩ := he placed rfl
    simp only [distStep]
    split
    · next k hk => exact .inr ⟨hhead, k, hcut k hk, by rw [hopen, Option.map_some]⟩
    · refine .inr ⟨hhead, (manifestOf H u route placed).text.length, by omega, ?_⟩
      rw [hopen, Option.map_some, List.take_length]
  | finished code placed => exact h

theorem reads_of_whole {old : Manifest} {w : World} {pc : DistPc} {before : Option Bytes}
    (hold : Reads before old) (h : pc.Whole H u route before w.pending)
    (hpc : ∀ placed, pc ≠ .writing placed) : RecordKept H u route old (w, pc) := by
  cases pc with
  | placing todo placed => exact .inl (h ▸ hold)
  | opening placed => exact .inl (h ▸ hold)
  | writing placed => exact absurd rfl (hpc placed)
  | finished code placed =>
    rcases h with h | ⟨hhead, k, hk, h⟩
    · exact .inl (h ▸ hold)
    · refine .inr ⟨_, h, ?_⟩
      rw [Manifest.read_take_of_length_le (writable_manifestOf placed) hk]
      exact ((Manifest.read_text_iff (writable_manifestOf placed) u.name_safe).mpr hhead).1

/-- The record was written with more than its last line break missing, or under a name that loses
its leading space. -/
def Spoilt (H : Sha256) (u : SealedUpload) (route : Route) (x : World × DistPc) : Prop :=
  ∃ code placed k, x.2 = .finished code placed ∧ placed ≠ [] ∧
    x.1.pending = some ((manifestOf H u route placed).text.take k) ∧
    (u.name.head? = some 32 ∨ ¬ (manifestOf H u route placed).text.length ≤ k + 1)

theorem spoilt_of_breach {e : DistEvent} {w : World} {pc : DistPc} {before : Option Bytes}
    (h : pc.Recorded H u route before w.pending) (hwell : pc.WellFormed)
    (he : ¬ WritesWhole H u route (w, pc) e) :
    Spoilt H u route (distStep H u route e w pc) := by
  unfold WritesWhole at he
  push Not at he
  obtain ⟨placed, hpc, hbreach⟩ := he
  obtain rfl : pc = .writing placed := hpc
  have hopen : w.pending = some [] := h
  have hplaced : placed ≠ [] := List.length_pos_iff.mp (Nat.zero_lt_two.trans_le hwell.2)
  have htext : (manifestOf H u route placed).text =
      (manifestOf H u route placed).text.take (manifestOf H u route placed).text.length :=
    List.take_length.symm
  simp only [distStep]
  cases hcut : e.cut with
  | none =>
    have hhead : u.name.head? = some 32 := by
      by_contra hhead
      obtain ⟨k, hk, -⟩ := hbreach hhead
      simp [hcut] at hk
    exact ⟨0, placed, _, rfl, hplaced, by rw [← htext, hopen]; rfl, .inl hhead⟩
  | some k =>
    refine ⟨1, placed, k, rfl, hplaced, by rw [hopen]; rfl, ?_⟩
    by_cases hhead : u.name.head? = some 32
    · exact .inl hhead
    · obtain ⟨k', hk', hlt⟩ := hbreach hhead
      obtain rfl : k = k' := Option.some.inj (hcut.symm.trans hk')
      exact .inr hlt.not_ge

theorem Spoilt.step {e : DistEvent} {w : World} {pc : DistPc} (h : Spoilt H u route (w, pc)) :
    Spoilt H u route (distStep H u route e w pc) := by
  obtain ⟨code, placed, k, hpc, h⟩ := h
  obtain rfl : pc = .finished code placed := hpc
  exact ⟨code, placed, k, rfl, h⟩

/-- A record that is part of the new one is read as the old one only when the old one lists some of
the shards of the new one, in their order. -/
theorem prefix_of_reads {old : Manifest} {placed : List Shard} {k : ℕ}
    (h : Manifest.read ((manifestOf H u route placed).text.take k) = .ok old) :
    old.shards.map ShardRef.what <+: (manifestOf H u route placed).shards.map ShardRef.what := by
  rcases Manifest.read_take (writable_manifestOf placed) h with hnone | ⟨refs, hrefs, rfl⟩
  · rw [hnone]
    exact List.nil_prefix
  · exact hrefs

theorem not_kept_of_spoilt {old : Manifest} {x : World × DistPc} (h : Spoilt H u route x)
    (hold : ¬ old.shards.map ShardRef.what <+:
      (manifestOf H u route x.2.placed).shards.map ShardRef.what) :
    ¬ RecordKept H u route old x := by
  obtain ⟨code, placed, k, hpc, hplaced, hpending, hbad⟩ := h
  rw [hpc] at hold
  rintro (⟨content, hcontent, hread⟩ | ⟨content, hcontent, hread⟩)
  · obtain rfl := Option.some.inj (hpending.symm.trans hcontent)
    exact hold (prefix_of_reads hread)
  · obtain rfl := Option.some.inj (hpending.symm.trans hcontent)
    rw [hpc] at hread
    have hshards : (manifestOf H u route placed).shards ≠ [] :=
      fun hnil => hplaced (List.map_eq_nil_iff.mp hnil)
    rcases hbad with hhead | hlen
    · rcases Manifest.read_take (writable_manifestOf placed) hread with hnone | ⟨refs, -, hm⟩
      · exact hshards hnone
      · have hname : u.name = wireName u.name := congrArg Manifest.name hm
        rw [hname] at hhead
        exact Manifest.head_wireName u.name hhead
    · exact hlen (Manifest.length_le_of_read_take (writable_manifestOf placed) hread rfl hshards)

theorem not_kept_of_writing {old : Manifest} {w : World} {placed : List Shard}
    (h : w.pending = some []) : ¬ RecordKept H u route old (w, .writing placed) := by
  have hread (m : Manifest) : ¬ Reads w.pending m := by
    rintro ⟨content, hcontent, hread⟩
    obtain rfl := Option.some.inj (h.symm.trans hcontent)
    contradiction
  rintro (hold | hnew)
  · exact hread _ hold
  · exact hread _ hnew

theorem writesThrough_of_kept {old : Manifest} {w : World} {es : List DistEvent}
    (h : RecordKept H u route old (distRun H u route w es))
    (hold : ¬ old.shards.map ShardRef.what <+:
      (manifestOf H u route (distRun H u route w es).2.placed).shards.map ShardRef.what) :
    WritesThrough H u route w es := by
  have hrecorded := distRun_recorded H u route w es
  constructor
  · refine Machine.along_of_absorbing (B := Spoilt H u route) (I := fun x : World × DistPc =>
      x.2.Recorded H u route w.pending x.1.pending ∧ x.2.WellFormed) ?_ ?_ ?_
      ⟨rfl, DistPc.start_wellFormed⟩ (fun hspoilt => not_kept_of_spoilt hspoilt hold h)
    · exact fun x e hx => ⟨distStep_recorded e hx.1, distStep_wellFormed e x.1 hx.2⟩
    · exact fun x e hx he => spoilt_of_breach hx.1 hx.2 he
    · exact fun x e _ hx => hx.step
  · intro placed hpc
    generalize distRun H u route w es = x at h hrecorded hpc
    obtain ⟨w', pc⟩ := x
    obtain rfl : pc = .writing placed := hpc
    exact not_kept_of_writing hrecorded h

end Pending

/-- A distribution that fails or is stopped leaves a record that can be read, the old one or all of
the new one, when it stops before the record is opened or after it is written out; and only then,
unless a part of the new record happens to be the old one. -/
theorem pending_kept (H : Sha256) (u : SealedUpload) (route : Route) {w : World} {old : Manifest}
    (hold : Reads w.pending old) (peers : ℕ) (splits : Bool) (es : List DistEvent) :
    ((peers ≠ Config.kTotalShards ∨ splits = false ∨ WritesThrough H u route w es) →
      RecordKept H u route old (distributeToPeers H u route peers splits w es)) ∧
    (RecordKept H u route old (distributeToPeers H u route peers splits w es) →
      ¬ old.shards.map ShardRef.what <+:
        (manifestOf H u route (distributeToPeers H u route peers splits w es).2.placed).shards.map
          ShardRef.what →
      peers ≠ Config.kTotalShards ∨ splits = false ∨ WritesThrough H u route w es) := by
  unfold distributeToPeers
  split_ifs with hpeers hsplits
  · exact ⟨fun _ => .inl hold, fun _ _ => .inl hpeers⟩
  · exact ⟨fun _ => .inl hold, fun _ _ => .inr (.inl hsplits)⟩
  · constructor
    · rintro (h | h | ⟨halong, hpc⟩)
      · exact absurd h hpeers
      · exact absurd h hsplits
      · have hstart : DistPc.start.Whole H u route w.pending w.pending := rfl
        exact reads_of_whole hold (Machine.inv_run (I := fun x : World × DistPc =>
          x.2.Whole H u route w.pending x.1.pending) (fun x e => distStep_whole) hstart halong) hpc
    · exact fun h hnot => .inr (.inr (writesThrough_of_kept h hnot))

/-- The record of an earlier version of the sample. -/
def earlierManifest : Manifest :=
  manifestOf sampleHash otherUpload sampleRoute [.d0, .d1, .p0, .p1]

def World.withEarlier : World := { World.empty with pending := some earlierManifest.text }

theorem reads_earlier : Reads World.withEarlier.pending earlierManifest :=
  ⟨_, rfl, by decide +kernel⟩

/-- A run in which nothing fails puts the new record in the place of the old one. -/
theorem pending_kept_sample :
    RecordKept sampleHash sampleUpload sampleRoute earlierManifest
      (distributeToPeers sampleHash sampleUpload sampleRoute 4 true World.withEarlier
        (List.replicate 7 sampleDist)) := by
  refine (pending_kept sampleHash sampleUpload sampleRoute reads_earlier 4 true
    (List.replicate 7 sampleDist)).1 (.inr (.inr ⟨?_, ?_⟩))
  · apply Machine.along_of_forall
    intro e he x placed _
    have hcut : e.cut = none := by rw [List.eq_of_mem_replicate he, sampleDist]
    exact ⟨by decide, fun k hk => absurd (hcut.symm.trans hk) (by simp)⟩
  · have hpc : (distRun sampleHash sampleUpload sampleRoute World.withEarlier
        (List.replicate 7 sampleDist)).2 = .finished 0 [.d0, .d1, .p0, .p1] := by decide +kernel
    exact fun placed hwriting => absurd (hpc.symm.trans hwriting) (by simp)

/-- The disk is full when the new record is written, and the pointer to the shards of the old one
is gone. -/
theorem pending_lost :
    Reads World.withEarlier.pending earlierManifest ∧
    (let x := distributeToPeers sampleHash sampleUpload sampleRoute 4 true World.withEarlier
      (List.replicate 6 sampleDist ++ [{ sampleDist with cut := some 0 }])
    x.2 = .finished 1 [.d0, .d1, .p0, .p1] ∧ x.1.pending = some []) ∧
    ∀ m, Manifest.read [] ≠ .ok m := by
  refine ⟨reads_earlier, ?_, ?_⟩
  · decide +kernel
  · intro m h
    contradiction

end PersonalCloud
