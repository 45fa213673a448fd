import PersonalCloud.Client.Resume

/-! A synchronisation and a distribution of the same name in one workspace. Both work on one
manifest file, and nothing keeps them apart. -/
namespace PersonalCloud

open Proto Channel Remote Store Session

structure RaceState where
  world : World
  sync : SyncPc
  dist : DistPc

def raceStep (H : Sha256) (a : Account) (u : SealedUpload) (route : Route) (x : RaceState) :
    SyncEvent ⊕ DistEvent → RaceState
  | .inl e =>
      let r := syncStep H a e x.world x.sync
      { x with world := r.1, sync := r.2 }
  | .inr e =>
      let r := distStep H u route e x.world x.dist
      { x with world := r.1, dist := r.2 }

def raceRun (H : Sha256) (a : Account) (u : SealedUpload) (route : Route) (w : World)
    (es : List (SyncEvent ⊕ DistEvent)) : RaceState :=
  Machine.run (raceStep H a u route) ⟨w, .start, .start⟩ es

/-- The distribution has opened the manifest, and has not failed. -/
def DistPc.recording : DistPc → Bool
  | writing _ | finished 0 _ => true
  | _ => false

/-- A step of the cleanup takes away what is not the upload's, unless the record it follows is. -/
def LeavesAlone (H : Sha256) (u : SealedUpload) (route : Route) (x : RaceState) (e : SyncEvent) :
    Prop :=
  match x.sync with
  | .releasing m (ref :: _) => RecordOf H u m ∨
      ∀ i ∈ x.dist.placed, ¬ ((route.peers i).bytes = ref.peer ∧ chunkId H u i = ref.chunkId)
  | .releasing m [] => e.removes = true → RecordOf H u m ∨ x.dist.recording = false
  | _ => True

/-- What the synchronisation takes away is not the upload's, unless the record it follows is; and
such a record it follows well. -/
def Spares {κ : Type*} (H : Sha256) (a : Account) (content : Bytes → κ) (u : SealedUpload)
    (route : Route) (x : RaceState) : SyncEvent ⊕ DistEvent → Prop
  | .inl e => FollowsWell H a content u (x.world, x.sync) e ∧ LeavesAlone H u route x e
  | .inr _ => True

instance (H : Sha256) (u : SealedUpload) (route : Route) :
    ∀ (x : RaceState) (e : SyncEvent), Decidable (LeavesAlone H u route x e)
  | ⟨_, .releasing m (ref :: _), d⟩, _ => inferInstanceAs (Decidable (RecordOf H u m ∨
      ∀ i ∈ d.placed, ¬ ((route.peers i).bytes = ref.peer ∧ chunkId H u i = ref.chunkId)))
  | ⟨_, .releasing m [], d⟩, e =>
      inferInstanceAs (Decidable (e.removes = true → RecordOf H u m ∨ d.recording = false))
  | ⟨_, .start, _⟩, _ | ⟨_, .fetching _ _ _, _⟩, _ | ⟨_, .rebuilt _ _, _⟩, _
  | ⟨_, .forwarding _ _, _⟩, _ | ⟨_, .finished _, _⟩, _ => inferInstanceAs (Decidable True)

instance {κ : Type*} [DecidableEq κ] (H : Sha256) (a : Account) (content : Bytes → κ)
    (u : SealedUpload) (route : Route) (x : RaceState) :
    ∀ e, Decidable (Spares H a content u route x e)
  | .inl e => inferInstanceAs
      (Decidable (FollowsWell H a content u (x.world, x.sync) e ∧ LeavesAlone H u route x e))
  | .inr _ => inferInstanceAs (Decidable True)

section Race

variable {κ : Type*} {content : Bytes → κ} {H : Sha256} {a : Account} {u : SealedUpload}
  {route : Route}

def SyncPc.manifest : SyncPc → Option Manifest
  | fetching m _ _ | rebuilt m _ | forwarding m _ | releasing m _ => some m
  | start | finished _ => none

theorem syncStep_manifest (e : SyncEvent) (w : World) {pc : SyncPc} {m : Manifest}
    (h : pc.manifest = some m) : (syncStep H a e w pc).2.manifest = some m ∨
      ∃ result, (syncStep H a e w pc).2 = .finished result := by
  cases pc with
  | start => contradiction
  | fetching m todo r =>
    cases todo with
    | nil =>
      simp only [syncStep]
      split
      · exact .inr ⟨_, rfl⟩
      · exact .inl h
    | cons ref todo => exact .inl h
  | rebuilt m stream =>
    simp only [syncStep]
    split_ifs
    · exact .inr ⟨_, rfl⟩
    · exact .inl h
    · exact .inl h
  | forwarding m stream =>
    simp only [syncStep]
    split
    · exact .inr ⟨_, rfl⟩
    · exact .inl h
  | releasing m todo =>
    cases todo with
    | nil => exact .inr ⟨_, rfl⟩
    | cons ref todo =>
      simp only [syncStep]
      split_ifs
      · exact .inl h
      · exact .inl h
  | finished result => contradiction

def SyncPc.late : SyncPc → Bool
  | releasing _ _ | finished _ => true
  | _ => false

theorem syncStep_late (e : SyncEvent) (w : World) {pc : SyncPc} (h : pc.late = true)
    (hsafe : pc.Safe) : (syncStep H a e w pc).1.server = w.server ∧
      (syncStep H a e w pc).2.late = true := by
  cases pc with
  | releasing m todo =>
    cases todo with
    | nil => exact ⟨rfl, rfl⟩
    | cons ref todo =>
      obtain ⟨hserver, -, hnext, -⟩ := syncStep_releasing (H := H) (a := a) e w m
        (hsafe ref List.mem_cons_self) todo
      rw [hnext]
      exact ⟨hserver, rfl⟩
  | finished result => exact ⟨rfl, rfl⟩
  | start | fetching | rebuilt | forwarding => exact absurd h Bool.false_ne_true

/-- The synchronisation follows a record of the upload, and has delivered it when it cleans up; or
it follows another record. -/
def Follows (H : Sha256) (a : Account) (content : Bytes → κ) (u : SealedUpload) (w : World)
    (pc : SyncPc) : Prop :=
  (pc.Sound H u ∧ ∀ m todo, pc = .releasing m todo → u.StoredOn content a w.server) ∨
    ∃ m, pc.manifest = some m ∧ ¬ RecordOf H u m

theorem syncStep_follows (hH : ∀ i, H.CollisionFree (u.shard i)) (e : SyncEvent) {w : World}
    {pc : SyncPc} (h : Follows H a content u w pc) (hwell : FollowsWell H a content u (w, pc) e) :
    Follows H a content u (syncStep H a e w pc).1 (syncStep H a e w pc).2 := by
  rcases h with ⟨hsound, hheld⟩ | ⟨m, hm, hother⟩
  · by_cases hstart : pc = .start
    · subst hstart
      simp only [syncStep]
      split
      · exact .inl ⟨trivial, fun _ _ h => by contradiction⟩
      · split
        · exact .inl ⟨trivial, fun _ _ h => by contradiction⟩
        · next m _ =>
          by_cases hrecord : RecordOf H u m
          · exact .inl ⟨.inr ⟨hrecord, hrecord.shards, Recovered.start_verified _⟩,
              fun _ _ h => by contradiction⟩
          · exact .inr ⟨m, rfl, hrecord⟩
    · refine .inl ⟨syncStep_sound hH e (fun h => absurd h hstart) hsound fun m r => hwell.keeps,
        fun m todo hnext => ?_⟩
      have hreleased : (syncStep H a e w pc).2.released = true := by
        rw [hnext]
        rfl
      by_cases hpc : pc.released = true
      · obtain ⟨-, hserver, -⟩ := syncStep_cleanup (a := a) e w hsound hpc
        rw [hserver]
        cases pc with
        | releasing m' todo' => exact hheld m' todo' rfl
        | finished result => contradiction
        | start | fetching | rebuilt | forwarding => exact absurd hpc Bool.false_ne_true
      · exact syncStep_stored e w hsound hwell (by simpa using hpc) hreleased
  · rcases syncStep_manifest (H := H) (a := a) e w hm with hnext | ⟨result, hnext⟩
    · exact .inr ⟨m, hnext, hother⟩
    · rw [hnext]
      exact .inl ⟨trivial, fun _ _ h => by contradiction⟩

def DistPc.Filed (H : Sha256) (u : SealedUpload) (route : Route) (now : Option Bytes) :
    DistPc → Prop
  | .writing _ => now.isSome = true
  | .finished 0 placed => now = some (manifestOf H u route placed).text
  | _ => True

theorem DistPc.filed_of_not_recording {d : DistPc} (h : d.recording = false) (now : Option Bytes) :
    d.Filed H u route now := by
  cases d with
  | placing | opening => trivial
  | writing placed => exact absurd h.symm Bool.false_ne_true
  | finished code placed =>
    cases code with
    | zero => exact absurd h.symm Bool.false_ne_true
    | succ code => trivial

theorem distStep_filed (e : DistEvent) {w : World} {d : DistPc} (h : d.Filed H u route w.pending) :
    (distStep H u route e w d).2.Filed H u route (distStep H u route e w d).1.pending := by
  cases d with
  | placing todo placed =>
    cases todo with
    | nil =>
      simp only [distStep]
      split_ifs <;> trivial
    | cons i todo =>
      obtain ⟨-, -, ⟨-, hnext | hnext⟩ | ⟨-, -, hnext | hnext⟩⟩ :=
        distStep_placing H u route e w i todo placed
      all_goals
        rw [hnext]
        trivial
  | opening placed =>
    simp only [distStep]
    split_ifs
    · trivial
    · rfl
  | writing placed =>
    obtain ⟨t, ht⟩ := Option.isSome_iff_exists.mp h
    simp only [distStep, ht, Option.map_some]
    split
    · trivial
    · rfl
  | finished code placed => exact h

/-- The upload is not lost: the server holds its content for good, or its shards and its record are
where the distribution has put them. -/
def Kept (H : Sha256) (a : Account) (content : Bytes → κ) (u : SealedUpload) (route : Route)
    (x : RaceState) : Prop :=
  (u.StoredOn content a x.world.server ∧ x.sync.late = true) ∨
    (Placed H u route x.world x.dist.placed ∧ x.dist.Filed H u route x.world.pending)

structure Racing (H : Sha256) (a : Account) (content : Bytes → κ) (u : SealedUpload)
    (route : Route) (x : RaceState) : Prop where
  safe : x.sync.Safe
  follows : Follows H a content u x.world x.sync
  kept : Kept H a content u route x

theorem raceStep_sync (hH : ∀ i, H.CollisionFree (u.shard i)) {x : RaceState} {e : SyncEvent}
    (h : Racing H a content u route x) (hspares : Spares H a content u route x (.inl e)) :
    Racing H a content u route (raceStep H a u route x (.inl e)) := by
  obtain ⟨w, pc, d⟩ := x
  obtain ⟨hsafe, hfollows, hkept⟩ := h
  obtain ⟨hwell, halone⟩ := hspares
  refine ⟨syncStep_safe e w hsafe, syncStep_follows hH e hfollows hwell, ?_⟩
  have hlate : u.StoredOn content a w.server → pc.late = true →
      Kept H a content u route (raceStep H a u route ⟨w, pc, d⟩ (.inl e)) := by
    intro hheld hpc
    obtain ⟨hserver, hnext⟩ := syncStep_late (H := H) (a := a) e w hpc hsafe
    exact .inl ⟨hserver ▸ hheld, hnext⟩
  rcases hkept with ⟨hheld, hpc⟩ | ⟨hplaced, hfiled⟩
  · exact hlate hheld hpc
  by_cases hpc : ∀ m todo, pc ≠ .releasing m todo
  · obtain ⟨hpending, hchunk⟩ := syncStep_before_release (H := H) (a := a) e w hpc
    refine .inr ⟨fun i hi => ?_, ?_⟩
    · rw [show (raceStep H a u route ⟨w, pc, d⟩ (.inl e)).world = (syncStep H a e w pc).1 from rfl,
        hchunk]
      exact hplaced i hi
    · rw [show (raceStep H a u route ⟨w, pc, d⟩ (.inl e)).world = (syncStep H a e w pc).1 from rfl,
        hpending]
      exact hfiled
  push Not at hpc
  obtain ⟨m, todo, rfl⟩ := hpc
  -- a record of the upload is only followed this far once it is delivered
  have hown : RecordOf H u m → u.StoredOn content a w.server := by
    intro hrecord
    rcases hfollows with ⟨-, hheld⟩ | ⟨m', hm', hother⟩
    · exact hheld m todo rfl
    · obtain rfl : m = m' := Option.some.inj hm'
      exact absurd hrecord hother
  cases todo with
  | nil =>
    by_cases hremoves : e.removes = true
    · rcases halone hremoves with hrecord | hnot
      · exact hlate (hown hrecord) rfl
      · exact .inr ⟨hplaced, DistPc.filed_of_not_recording hnot _⟩
    · refine .inr ⟨hplaced, ?_⟩
      simpa only [raceStep, syncStep, hremoves, Bool.false_eq_true, ↓reduceIte] using hfiled
  | cons ref todo =>
    rcases halone with hrecord | hother
    · exact hlate (hown hrecord) rfl
    · obtain ⟨-, hpending, -, hchunk⟩ := syncStep_releasing (H := H) (a := a) e w m
        (hsafe ref List.mem_cons_self) todo
      refine .inr ⟨fun i hi => ⟨?_, (hplaced i hi).2⟩, hpending ▸ hfiled⟩
      rcases hchunk with hchunk | hchunk
      · exact (hchunk _ _).trans (hplaced i hi).1
      · exact ((hchunk _ _).trans (if_neg (hother i hi))).trans (hplaced i hi).1

theorem raceStep_dist (hH : ∀ i, H.CollisionFree (u.shard i)) {x : RaceState} (e : DistEvent)
    (h : Racing H a content u route x) :
    Racing H a content u route (raceStep H a u route x (.inr e)) := by
  obtain ⟨w, pc, d⟩ := x
  obtain ⟨hsafe, hfollows, hkept⟩ := h
  have hserver : (distStep H u route e w d).1.server = w.server := distStep_server e w d
  refine ⟨hsafe, ?_, ?_⟩
  · exact hfollows.imp_left (And.imp_right fun hheld m todo hpc => hserver ▸ hheld m todo hpc)
  · rcases hkept with ⟨hheld, hlate⟩ | ⟨hplaced, hfiled⟩
    · exact .inl ⟨hserver ▸ hheld, hlate⟩
    · exact .inr ⟨distStep_placed hH e hplaced, distStep_filed e hfiled⟩

/-- Whatever the order of the steps, the content of an upload that has succeeded is held by the
server, or a record that can be read tells where its shards are. -/
theorem race_kept (hH : ∀ i, H.CollisionFree (u.shard i))
    (hname : isSafeName (wireName u.name) = true) {w : World}
    {es : List (SyncEvent ⊕ DistEvent)}
    (hes : Machine.Along (raceStep H a u route) (Spares H a content u route) ⟨w, .start, .start⟩ es)
    {placed : List Shard} (hdone : (raceRun H a u route w es).dist = .finished 0 placed) :
    u.StoredOn content a (raceRun H a u route w es).world.server ∨
    ∃ t m, (raceRun H a u route w es).world.pending = some t ∧ Manifest.read t = .ok m ∧
      m.shards = placed.map (shardRef H u route) ∧ RecordOf H u m ∧
      Config.kDataShards ≤ placed.length ∧ Placed H u route (raceRun H a u route w es).world placed := by
  have hstart : Racing H a content u route ⟨w, .start, .start⟩ ∧ DistPc.start.WellFormed :=
    ⟨⟨trivial, .inl ⟨trivial, fun _ _ h => by contradiction⟩,
      .inr ⟨by simp [Placed, DistPc.start, DistPc.placed], trivial⟩⟩, DistPc.start_wellFormed⟩
  obtain ⟨hrace, hwell⟩ : Racing H a content u route (raceRun H a u route w es) ∧
      (raceRun H a u route w es).dist.WellFormed := by
    refine Machine.inv_run (I := fun x => Racing H a content u route x ∧ x.dist.WellFormed) ?_
      hstart hes
    rintro x (e | e) ⟨hx, hwell⟩ hspares
    · exact ⟨raceStep_sync hH hx hspares, hwell⟩
    · exact ⟨raceStep_dist hH e hx, distStep_wellFormed e x.world hwell⟩
  rw [hdone] at hwell
  rcases hrace.kept with ⟨hheld, -⟩ | ⟨hplaced, hfiled⟩
  · exact .inl hheld
  · rw [hdone] at hplaced hfiled
    have hnodup : placed.Nodup := hwell.1.nodup (by decide)
    have hread : Manifest.read (manifestOf H u route placed).text =
        if isSafeName (wireName u.name) then .ok (recordRead H u route placed)
        else .error "manifest has no usable file name" :=
      Manifest.read_text (writable_manifestOf placed)
    rw [if_pos hname] at hread
    exact .inr ⟨_, _, hfiled, hread, rfl, recordOf_recordRead hnodup, hwell.2, hplaced⟩

end Race

def otherPending : World :=
  (distRun sampleHash otherUpload sampleRoute World.empty (List.replicate 7 sampleDist)).1

def fetchOther : SyncEvent :=
  { sampleSync .buffered with fetch := ⟨true, sendLine (ascii "DATA 1") ++ [9], .done, .done⟩ }

/-- The synchronisation works on the other version while the upload places its shards, and is done
with it just before the upload opens the manifest. -/
def sampleSharing : List (SyncEvent ⊕ DistEvent) :=
  [.inl (sampleSync .buffered), .inr sampleDist, .inl fetchOther, .inr sampleDist, .inl fetchOther,
    .inr sampleDist, .inl (sampleSync .buffered), .inr sampleDist] ++
  List.replicate 4 (.inl (sampleSync .buffered)) ++ [.inr sampleDist] ++
  List.replicate 5 (.inl (sampleSync .buffered)) ++ List.replicate 2 (.inr sampleDist)

theorem sharing_kept :
    sampleUpload.StoredOn id sampleAccount (raceRun sampleHash sampleAccount sampleUpload
      sampleRoute otherPending sampleSharing).world.server ∨
    ∃ t m, (raceRun sampleHash sampleAccount sampleUpload sampleRoute otherPending
        sampleSharing).world.pending = some t ∧ Manifest.read t = .ok m ∧
      m.shards = [Shard.d0, .d1, .p0, .p1].map (shardRef sampleHash sampleUpload sampleRoute) ∧
      RecordOf sampleHash sampleUpload m ∧ Config.kDataShards ≤ [Shard.d0, .d1, .p0, .p1].length ∧
      Placed sampleHash sampleUpload sampleRoute (raceRun sampleHash sampleAccount sampleUpload
        sampleRoute otherPending sampleSharing).world [.d0, .d1, .p0, .p1] := by
  have hspares : Machine.Along (raceStep sampleHash sampleAccount sampleUpload sampleRoute)
      (Spares sampleHash sampleAccount id sampleUpload sampleRoute) ⟨otherPending, .start, .start⟩
      sampleSharing := by decide +kernel
  have hdone : (raceRun sampleHash sampleAccount sampleUpload sampleRoute otherPending
      sampleSharing).dist = .finished 0 [.d0, .d1, .p0, .p1] := by decide +kernel
  exact race_kept sampleHash_collisionFree (by decide) hspares hdone

/-- The synchronisation forwards the other version; then the upload runs from start to end; then
the synchronisation cleans up. -/
def sampleRace : RaceState :=
  raceRun sampleHash sampleAccount sampleUpload sampleRoute otherPending
    ((sampleSync .buffered :: List.replicate 2 fetchOther ++
        List.replicate 5 (sampleSync .buffered)).map .inl ++
      List.replicate 7 (.inr sampleDist) ++ List.replicate 5 (.inl (sampleSync .buffered)))

/-- The upload has succeeded, and neither the server nor any record knows of it. -/
theorem upload_lost :
    sampleRace.sync.released = true ∧ sampleRace.dist = .finished 0 [.d0, .d1, .p0, .p1] ∧
    sampleRace.world.pending = none ∧
    sampleUpload.fileOn sampleAccount sampleRace.world.server = some [9, 9] ∧
    ¬ sampleUpload.StoredOn id sampleAccount sampleRace.world.server ∧
    ¬ sampleUpload.ShownOn sampleAccount sampleRace.world.server := by
  obtain ⟨hsync, hdist, hpending, hfile, hstored, hinfo⟩ :
      sampleRace.sync.released = true ∧ sampleRace.dist = .finished 0 [.d0, .d1, .p0, .p1] ∧
      sampleRace.world.pending = none ∧
      sampleUpload.fileOn sampleAccount sampleRace.world.server = some [9, 9] ∧
      ¬ sampleUpload.StoredOn id sampleAccount sampleRace.world.server ∧
      fileInfo sampleRace.world.server sampleAccount.user (wireName sampleUpload.name) =
        some (2, List.replicate 64 98) := by decide +kernel
  refine ⟨hsync, hdist, hpending, hfile, hstored, ?_⟩
  rintro ⟨-, size, shown, hshown, htag⟩
  obtain ⟨-, rfl⟩ := Prod.mk.inj (Option.some.inj (hinfo.symm.trans hshown))
  exact absurd htag (by decide)

end PersonalCloud
