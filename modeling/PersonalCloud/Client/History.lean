import PersonalCloud.Client.Sync

/-! Uploads and synchronisations of one name, one after another. A file may reach the server
directly or by way of the peers, and nothing but the dedup tag connects the two ways. -/
namespace PersonalCloud

open Proto Channel Remote Store Session

abbrev Version (name : Bytes) := {u : SealedUpload // u.name = name}

/-- An upload with the server reachable, one with the server unreachable, or a synchronisation. -/
inductive HistoryOp (name : Bytes) where
  | direct (u : Version name) (e : DirectEvent)
  | distribute (u : Version name) (route : Route) (es : List DistEvent)
  | sync (es : List SyncEvent)

/-- The world, the uploads so far with whether they returned 0, the newest first, and whether an
upload went to the server after the pending record was written. -/
structure HistoryState (name : Bytes) where
  world : World
  log : List (Version name × Bool)
  outdated : Bool

def DistPc.succeeded : DistPc → Bool
  | finished 0 _ => true
  | _ => false

def historyStep (H : Sha256) (a : Account) {name : Bytes} (x : HistoryState name) :
    HistoryOp name → HistoryState name
  | .direct u e =>
      let r := uploadToServer a u e x.world
      { world := r.1
        log := (u, decide (r.2 = 0)) :: x.log
        outdated := x.outdated || (decide (r.2 = 0) && x.world.pending.isSome) }
  | .distribute u route es =>
      let r := distRun H u route x.world es
      { world := r.1
        log := (u, r.2.succeeded) :: x.log
        outdated := x.outdated && !r.2.succeeded && decide (r.1.pending = x.world.pending) }
  | .sync es => { x with world := (syncRun H a x.world es).1 }

def historyRun (H : Sha256) (a : Account) {name : Bytes} (w : World) (ops : List (HistoryOp name)) :
    HistoryState name :=
  Machine.run (historyStep H a) ⟨w, [], false⟩ ops

/-- The versions that are not older than the last one whose upload returned 0. -/
def recent {name : Bytes} : List (Version name × Bool) → List (Version name)
  | [] => []
  | (u, true) :: _ => [u]
  | (u, false) :: log => u :: recent log

section History

variable {κ : Type*} {content : Bytes → κ} {H : Sha256} {a : Account} {name : Bytes}

/-- An upload to the server returns 0 when it has stored the stream, or when it was answered with its
own tag. -/
theorem uploadToServer_cases (u : SealedUpload) (e : DirectEvent) (w : World) :
    (uploadToServer a u e w).1.pending = w.pending ∧
    (((uploadToServer a u e w).2 = 0 ∧
        (u.fileOn a (uploadToServer a u e w).1.server = some u.stream ∨
          (uploadToServer a u e w).1 = w ∧ e.connects = true ∧
            w.Tells a e.statEnv e.statLink u.name u.tag)) ∨
      (uploadToServer a u e w).2 = 1 ∧
        (u.fileOn a (uploadToServer a u e w).1.server = some u.stream ∨
          SameFiles w.server (uploadToServer a u e w).1.server)) := by
  have hplain : IsPlain u.name := isPlain_of_isSafeName u.name_safe
  have hstat := w.askServer_stat e.statEnv e.statLink a hplain
  unfold uploadToServer
  by_cases hconn : e.connects = false
  · rw [if_pos hconn]
    exact ⟨rfl, .inr ⟨rfl, .inr (SameFiles.refl _)⟩⟩
  rw [if_neg hconn]
  simp only [hstat]
  split_ifs with hthere
  · exact ⟨rfl, .inl ⟨rfl, .inr ⟨rfl, by simpa using hconn, hthere⟩⟩⟩
  · rcases w.askServer_putFile e.putEnv e.putLink a hplain u.isTag_tag u.stream with
      ⟨final, hfinal, -, hserver⟩ | ⟨hreply, steps, htemp, hserver⟩
    · have hstored : u.fileOn a (w.askServer a e.putEnv e.putLink
          (putFileLine u.name u.tag u.stream.length) u.stream).1.server = some u.stream := by
        rw [hserver]
        exact fileOn_run_upload hfinal
      split
      · exact ⟨rfl, .inr ⟨rfl, .inl hstored⟩⟩
      · exact ⟨rfl, .inl ⟨rfl, .inl hstored⟩⟩
    · split
      · exact ⟨rfl, .inr ⟨rfl, .inr (hserver ▸ SameFiles.run_temp htemp _)⟩⟩
      · next hok => exact absurd hok hreply

/-- An interrupted or failed distribution leaves the record alone or a part of its own. -/
theorem distRun_pending (u : SealedUpload) (route : Route) (w : World) (es : List DistEvent) :
    ((distRun H u route w es).1.pending = w.pending ∧
      (distRun H u route w es).2.succeeded = false) ∨
    ∃ t, (distRun H u route w es).1.pending = some t ∧ PartOfRecord H u route t := by
  have hrecorded := distRun_recorded H u route w es
  have hnodup := (distRun_wellFormed H u route w es).nodup
  generalize distRun H u route w es = x at hrecorded hnodup ⊢
  obtain ⟨w', pc⟩ := x
  cases pc with
  | placing todo placed | opening placed => exact .inl ⟨hrecorded, rfl⟩
  | writing placed => exact .inr ⟨[], hrecorded, placed, hnodup, 0, (List.take_zero).symm⟩
  | finished code placed =>
    cases code with
    | zero =>
      refine .inr ⟨_, hrecorded, placed, hnodup, (manifestOf H u route placed).text.length, ?_⟩
      rw [List.take_length]
    | succ code =>
      rcases hrecorded with hsame | ⟨k, hcut⟩
      · exact .inl ⟨hsame, rfl⟩
      · exact .inr ⟨_, hcut, placed, hnodup, k, rfl⟩

theorem syncRun_of_not_pending {w : World} (h : w.pending = none) (es : List SyncEvent) :
    (syncRun H a w es).1 = w := by
  have hstart : w = w ∧ (SyncPc.start = .start ∨ ∃ r, SyncPc.start = .finished r) :=
    ⟨rfl, .inl rfl⟩
  refine (Machine.inv_run_all (I := fun x : World × SyncPc =>
    x.1 = w ∧ (x.2 = .start ∨ ∃ r, x.2 = .finished r)) ?_ hstart es).1
  rintro ⟨w', pc⟩ e ⟨rfl, rfl | ⟨r, rfl⟩⟩
  · replace h : w'.pending = none := h
    simp [syncStep, h]
  · exact ⟨rfl, .inr ⟨r, rfl⟩⟩

theorem SealedUpload.StoredOn.of_same {u : SealedUpload} {d d' : Disk} (h : u.StoredOn content a d)
    (hsame : SameFiles d d') : u.StoredOn content a d' := by
  rw [StoredOn, hsame.fileOn]
  exact h

theorem mem_recent_cons {u v : Version name} {log : List (Version name × Bool)}
    (h : v ∈ recent log) : v ∈ recent ((u, false) :: log) := List.mem_cons_of_mem _ h

theorem recent_filter (log : List (Version name × Bool)) :
    recent (log.filter Prod.snd) = ((log.filter Prod.snd).head?.map Prod.fst).toList := by
  cases h : log.filter Prod.snd with
  | nil => rfl
  | cons entry rest =>
    obtain ⟨u, returned⟩ := entry
    have hmem : (u, returned) ∈ log.filter Prod.snd := by simp [h]
    obtain rfl : returned = true := (List.mem_filter.mp hmem).2
    rfl

theorem mem_recent_of_filter {v : Version name} {log : List (Version name × Bool)}
    (h : v ∈ recent (log.filter Prod.snd)) : v ∈ recent log := by
  induction log with
  | nil => exact h
  | cons entry log ih =>
    obtain ⟨u, returned⟩ := entry
    cases returned with
    | true => exact h
    | false => exact mem_recent_cons (ih h)

/-- The record, unless it is outdated, is of a recent version; and without a record the server
holds the content of a recent version, once there is one. -/
structure UpToDate (H : Sha256) (a : Account) (content : Bytes → κ)
    (log : List (Version name × Bool)) (w : World) (outdated : Bool) : Prop where
  recorded : ∀ t, w.pending = some t → outdated = false → ∃ v ∈ recent log,
    (∀ i, H.CollisionFree (v.1.shard i)) ∧ ∃ route, PartOfRecord H v.1 route t
  held : w.pending = none → (∃ entry ∈ log, entry.2 = true) → ∃ v ∈ recent log,
    v.1.StoredOn content a w.server

theorem UpToDate.same {log : List (Version name × Bool)} {w w' : World} {outdated : Bool}
    (h : UpToDate H a content log w outdated) (hpending : w'.pending = w.pending)
    (hserver : SameFiles w.server w'.server) : UpToDate H a content log w' outdated where
  recorded t ht hout := h.recorded t (hpending ▸ ht) hout
  held hnone hsome :=
    let ⟨v, hv, hheld⟩ := h.held (hpending ▸ hnone) hsome
    ⟨v, hv, hheld.of_same hserver⟩

theorem UpToDate.failed {log : List (Version name × Bool)} {w : World} {outdated : Bool}
    (h : UpToDate H a content log w outdated) (u : Version name) :
    UpToDate H a content ((u, false) :: log) w outdated where
  recorded t ht hout :=
    let ⟨v, hv, hpart⟩ := h.recorded t ht hout
    ⟨v, mem_recent_cons hv, hpart⟩
  held hnone hsome := by
    obtain ⟨entry, hentry, htrue⟩ := hsome
    rcases List.mem_cons.mp hentry with rfl | hentry
    · exact absurd htrue Bool.false_ne_true
    · obtain ⟨v, hv, hheld⟩ := h.held hnone ⟨entry, hentry, htrue⟩
      exact ⟨v, mem_recent_cons hv, hheld⟩

/-- What lets the history go on well: an upload that is answered with its own tag finds its content
there; no shard of a version on its way to the peers shares its hash with anything else; and
synchronisations start from a record that is not outdated and follow it well. -/
def InStep (H : Sha256) (a : Account) (content : Bytes → κ) (x : HistoryState name) :
    HistoryOp name → Prop
  | .direct u e => e.connects = true → x.world.Tells a e.statEnv e.statLink u.1.name u.1.tag →
      u.1.StoredOn content a x.world.server
  | .distribute u _ _ => ∀ i, H.CollisionFree (u.1.shard i)
  | .sync es => x.outdated = false ∧ ∀ v ∈ recent x.log,
      Machine.Along (fun y e => syncStep H a e y.1 y.2) (FollowsWell H a content v.1)
        (x.world, .start) es

theorem upToDate_direct {x : HistoryState name} (u : Version name) (e : DirectEvent)
    (htells : InStep H a content x (.direct u e))
    (h : UpToDate H a content x.log x.world x.outdated) :
    UpToDate H a content (historyStep H a x (.direct u e)).log
      (historyStep H a x (.direct u e)).world (historyStep H a x (.direct u e)).outdated := by
  obtain ⟨hpending, ⟨hcode, hserver⟩ | ⟨hcode, hserver⟩⟩ :=
    uploadToServer_cases (a := a) u.1 e x.world
  · have hheld : u.1.StoredOn content a (uploadToServer a u e x.world).1.server := by
      rcases hserver with hstored | ⟨hsame, hconn, htold⟩
      · exact SealedUpload.storedOn_of_fileOn hstored
      · rw [hsame]
        exact htells hconn htold
    simp only [historyStep, hcode, decide_true, Bool.true_and]
    constructor
    · intro t ht hout
      rw [hpending] at ht
      simp [ht] at hout
    · exact fun _ _ => ⟨u, List.mem_singleton_self u, hheld⟩
  · simp only [historyStep, hcode, one_ne_zero, decide_false, Bool.false_and, Bool.or_false]
    rcases hserver with hstored | hsame
    · constructor
      · intro t ht hout
        rw [hpending] at ht
        exact (h.failed u).recorded t ht hout
      · exact fun _ _ => ⟨u, List.mem_cons_self, SealedUpload.storedOn_of_fileOn hstored⟩
    · exact (h.failed u).same hpending hsame

theorem upToDate_distribute {x : HistoryState name} (u : Version name) (route : Route)
    (es : List DistEvent) (hfree : ∀ i, H.CollisionFree (u.1.shard i))
    (h : UpToDate H a content x.log x.world x.outdated) :
    UpToDate H a content (historyStep H a x (.distribute u route es)).log
      (historyStep H a x (.distribute u route es)).world
      (historyStep H a x (.distribute u route es)).outdated := by
  have hserver : (distRun H u.1 route x.world es).1.server = x.world.server :=
    (distRun_placed route hfree x.world es).1
  rcases distRun_pending (H := H) u.1 route x.world es with ⟨hsame, hfailed⟩ | ⟨t, ht, hpart⟩
  · simp only [historyStep, hfailed, hsame, decide_true, Bool.and_true, Bool.not_false]
    exact (h.failed u).same hsame (hserver ▸ SameFiles.refl _)
  · constructor
    · intro t' ht' _
      obtain rfl : t = t' := Option.some.inj (ht.symm.trans ht')
      refine ⟨u, ?_, hfree, route, hpart⟩
      simp only [historyStep]
      cases (distRun H u.1 route x.world es).2.succeeded with
      | true => exact List.mem_singleton_self u
      | false => exact List.mem_cons_self
    · intro hnone
      exact absurd (ht.symm.trans hnone) (Option.some_ne_none t)

/-- A synchronisation whose record is not outdated follows a recent version throughout. -/
theorem UpToDate.delivering {log : List (Version name × Bool)} {w : World}
    (h : UpToDate H a content log w false) {t : Bytes} (ht : w.pending = some t)
    {es : List SyncEvent} (hwell : ∀ v ∈ recent log, Machine.Along
      (fun y e => syncStep H a e y.1 y.2) (FollowsWell H a content v.1) (w, .start) es) :
    ∃ v ∈ recent log, Delivering H a v.1 w (syncRun H a w es) ∧
      ((syncRun H a w es).2.released = true →
        v.1.StoredOn content a (syncRun H a w es).1.server) := by
  obtain ⟨v, hv, hfree, route, hpart⟩ := h.recorded t ht rfl
  have hrecord : ∀ t', w.pending = some t' → PartOfRecord H v.1 route t' := by
    intro t' ht'
    obtain rfl : t = t' := Option.some.inj (ht.symm.trans ht')
    exact hpart
  exact ⟨v, hv, syncRun_stored hfree hrecord (hwell v hv)⟩

theorem upToDate_sync {log : List (Version name × Bool)} {w : World}
    (h : UpToDate H a content log w false) {es : List SyncEvent}
    (hwell : ∀ v ∈ recent log, Machine.Along (fun y e => syncStep H a e y.1 y.2)
      (FollowsWell H a content v.1) (w, .start) es) :
    UpToDate H a content log (syncRun H a w es).1 false := by
  cases hpending : w.pending with
  | none => rwa [syncRun_of_not_pending hpending]
  | some t =>
    obtain ⟨v, hv, hdelivering, hstored⟩ := h.delivering hpending hwell
    constructor
    · intro t' ht' hout
      rcases hdelivering.pending with hsame | hnone
      · exact h.recorded t' (hsame ▸ ht') hout
      · exact absurd (hnone.symm.trans ht') (Option.some_ne_none t').symm
    · intro hnone _
      have hreleased : (syncRun H a w es).2.released = true := by
        by_contra hnot
        obtain ⟨hkept, -⟩ := hdelivering.kept (by simpa using hnot)
        exact absurd (hpending.symm.trans (hkept.symm.trans hnone)) (Option.some_ne_none t)
      exact ⟨v, hv, hstored hreleased⟩

theorem historyStep_upToDate {x : HistoryState name} (h : UpToDate H a content x.log x.world x.outdated)
    {op : HistoryOp name} (hop : InStep H a content x op) :
    UpToDate H a content (historyStep H a x op).log (historyStep H a x op).world
      (historyStep H a x op).outdated := by
  cases op with
  | direct u e => exact upToDate_direct u e hop h
  | distribute u route es => exact upToDate_distribute u route es hop h
  | sync es =>
    obtain ⟨hout, hwell⟩ := hop
    rw [hout] at h
    simpa only [historyStep, hout] using upToDate_sync h hwell

/-- A step of a synchronisation leaves the files alone or stores a recent version. -/
def NoRollback (H : Sha256) (a : Account) (x : HistoryState name) : HistoryOp name → Prop
  | .sync es => ∀ k, SameFiles (syncRun H a x.world (es.take k)).1.server
        (syncRun H a x.world (es.take (k + 1))).1.server ∨
      ∃ v ∈ recent x.log,
        v.1.fileOn a (syncRun H a x.world (es.take (k + 1))).1.server = some v.1.stream
  | _ => True

theorem noRollback {x : HistoryState name} (h : UpToDate H a content x.log x.world x.outdated)
    {op : HistoryOp name} (hop : InStep H a content x op) : NoRollback H a x op := by
  cases op with
  | direct | distribute => trivial
  | sync es =>
    obtain ⟨hout, hwell⟩ := hop
    rw [hout] at h
    intro k
    cases hpending : x.world.pending with
    | none =>
      rw [syncRun_of_not_pending hpending, syncRun_of_not_pending hpending]
      exact .inl (SameFiles.refl _)
    | some t =>
      obtain ⟨v, hv, hdelivering, -⟩ :=
        h.delivering hpending fun v hv => Machine.along_take (hwell v hv) k
      rcases Nat.lt_or_ge k es.length with hk | hk
      · have hstep : syncRun H a x.world (es.take (k + 1)) = syncStep H a es[k]
            (syncRun H a x.world (es.take k)).1 (syncRun H a x.world (es.take k)).2 := by
          rw [List.take_succ_eq_append_getElem hk, syncRun, Machine.run_append]
          rfl
        rw [hstep]
        rcases syncStep_server (a := a) es[k] (syncRun H a x.world (es.take k)).1
          hdelivering.sound with hstored | hsame
        · exact .inr ⟨v, hv, hstored⟩
        · exact .inl hsame
      · rw [List.take_of_length_le hk, List.take_of_length_le (hk.trans (Nat.le_succ k))]
        exact .inl (SameFiles.refl _)

/-- An upload that does not return 0 leaves the files of the server and the record alone. -/
def FailsClean (H : Sha256) (a : Account) (x : HistoryState name) : HistoryOp name → Prop
  | .direct u e => (uploadToServer a u e x.world).2 = 0 ∨
      SameFiles x.world.server (uploadToServer a u e x.world).1.server
  | .distribute u route es => (distRun H u route x.world es).2.succeeded = true ∨
      (distRun H u route x.world es).1.pending = x.world.pending
  | .sync _ => True

theorem historyStep_returned {x : HistoryState name}
    (h : UpToDate H a content (x.log.filter Prod.snd) x.world x.outdated) {op : HistoryOp name}
    (hop : InStep H a content x op) (hclean : FailsClean H a x op) :
    UpToDate H a content ((historyStep H a x op).log.filter Prod.snd) (historyStep H a x op).world
      (historyStep H a x op).outdated := by
  cases op with
  | direct u e =>
    have hstep := upToDate_direct (x := { x with log := x.log.filter Prod.snd }) u e hop h
    by_cases hcode : (uploadToServer a u e x.world).2 = 0
    · simpa [historyStep, hcode] using hstep
    · have hpending := (uploadToServer_cases (a := a) u.1 e x.world).1
      simpa [historyStep, hcode] using h.same hpending (hclean.resolve_left hcode)
  | distribute u route es =>
    have hstep := upToDate_distribute (x := { x with log := x.log.filter Prod.snd }) u route es hop h
    cases hdone : (distRun H u route x.world es).2.succeeded with
    | true => simpa [historyStep, hdone] using hstep
    | false =>
      have hpending := hclean.resolve_left (by simp [hdone])
      have hserver : (distRun H u.1 route x.world es).1.server = x.world.server :=
        (distRun_placed route hop x.world es).1
      simpa [historyStep, hdone, hpending] using h.same hpending (hserver ▸ SameFiles.refl _)
  | sync es =>
    obtain ⟨hout, hwell⟩ := hop
    rw [hout] at h
    simpa only [historyStep, hout] using
      upToDate_sync h fun v hv => hwell v (mem_recent_of_filter hv)

/-- As long as no synchronisation starts from a record that is older than an upload that has
returned 0, none rolls the file back: without a record the server holds the content of the last
version uploaded successfully or of one that was tried after it, and exactly the former if failed
uploads leave nothing behind. -/
theorem history_not_rolled_back {w : World} (hw : w.pending = none) {ops : List (HistoryOp name)}
    (hops : Machine.Along (historyStep H a) (InStep H a content) ⟨w, [], false⟩ ops) :
    Machine.Along (historyStep H a) (NoRollback H a) ⟨w, [], false⟩ ops ∧
    ((historyRun H a w ops).world.pending = none →
      (∃ entry ∈ (historyRun H a w ops).log, entry.2 = true) →
      ∃ v ∈ recent (historyRun H a w ops).log,
        v.1.StoredOn content a (historyRun H a w ops).world.server) ∧
    (Machine.Along (historyStep H a) (FailsClean H a) ⟨w, [], false⟩ ops →
      (historyRun H a w ops).world.pending = none →
      ∀ v, ((historyRun H a w ops).log.filter Prod.snd).head? = some (v, true) →
        v.1.StoredOn content a (historyRun H a w ops).world.server) := by
  have hstart : UpToDate H a content ([] : List (Version name × Bool)) w false :=
    ⟨fun t ht => absurd (hw.symm.trans ht) (Option.some_ne_none t).symm, by simp⟩
  have hstep : ∀ (x : HistoryState name) op, UpToDate H a content x.log x.world x.outdated →
      InStep H a content x op → UpToDate H a content (historyStep H a x op).log
        (historyStep H a x op).world (historyStep H a x op).outdated :=
    fun _ _ hx hop => historyStep_upToDate hx hop
  refine ⟨Machine.along_imp hstep (fun _ _ hx hop => noRollback hx hop) hstart hops, ?_, ?_⟩
  · exact (Machine.inv_run (I := fun x => UpToDate H a content x.log x.world x.outdated) hstep
      hstart hops).held
  · intro hclean hnone v hlast
    have hboth := Machine.along_and hops hclean
    have hrun : UpToDate H a content ((historyRun H a w ops).log.filter Prod.snd)
        (historyRun H a w ops).world (historyRun H a w ops).outdated :=
      Machine.inv_run (I := fun x => UpToDate H a content (x.log.filter Prod.snd) x.world x.outdated)
        (fun _ _ hx hop => historyStep_returned hx hop.1 hop.2) hstart hboth
    obtain ⟨v', hv', hheld⟩ := hrun.held hnone ⟨(v, true), List.mem_of_mem_head? hlast, rfl⟩
    rw [recent_filter, hlast] at hv'
    obtain rfl : v' = v := by simpa using hv'
    exact hheld

end History

abbrev SampleOp := HistoryOp (ascii "a")

def distributeSample : SampleOp :=
  .distribute ⟨sampleUpload, rfl⟩ sampleRoute (List.replicate 7 sampleDist)

def directOther : SampleOp :=
  .direct ⟨otherUpload, rfl⟩ ⟨true, calmEnv, ⟨1000, true⟩, calmEnv, ⟨1000, true⟩⟩

def syncSample : SampleOp := .sync (sampleSyncs .buffered)

/-- The three bytes go by way of the peers, and then the other version twice to the server, where it
is already the second time. -/
def sampleHistory : List SampleOp := [distributeSample, syncSample, directOther, directOther]

theorem otherUpload_kept : otherUpload.StoredOn id sampleAccount
    (historyRun sampleHash sampleAccount World.empty sampleHistory).world.server := by
  obtain ⟨hsucceeded, hpending, hcodes⟩ : (distRun sampleHash sampleUpload sampleRoute World.empty
        (List.replicate 7 sampleDist)).2.succeeded = true ∧
      (historyRun sampleHash sampleAccount World.empty sampleHistory).world.pending = none ∧
      (historyRun sampleHash sampleAccount World.empty sampleHistory).log.map Prod.snd =
        [true, true, true] := by decide +kernel
  have hfollows : ∀ v ∈ recent (historyRun sampleHash sampleAccount World.empty
      [distributeSample]).log, Machine.Along (fun y e => syncStep sampleHash sampleAccount e y.1 y.2)
        (FollowsWell sampleHash sampleAccount id v.1) ((historyRun sampleHash sampleAccount
          World.empty [distributeSample]).world, .start) (sampleSyncs .buffered) := by
    decide +kernel
  have hfirst : InStep sampleHash sampleAccount id (historyRun sampleHash sampleAccount World.empty
      [distributeSample, syncSample]) directOther := by
    intro _
    decide +kernel
  have hagain : InStep sampleHash sampleAccount id (historyRun sampleHash sampleAccount World.empty
      [distributeSample, syncSample, directOther]) directOther := by
    intro _
    decide +kernel
  have hops : Machine.Along (historyStep sampleHash sampleAccount)
      (InStep sampleHash sampleAccount id) ⟨World.empty, [], false⟩ sampleHistory :=
    ⟨sampleHash_collisionFree, ⟨rfl, hfollows⟩, hfirst, hagain, trivial⟩
  have hclean : Machine.Along (historyStep sampleHash sampleAccount)
      (FailsClean sampleHash sampleAccount) ⟨World.empty, [], false⟩ sampleHistory := by
    refine ⟨.inl hsucceeded, trivial, .inl ?_, .inl ?_, trivial⟩
    · decide +kernel
    · decide +kernel
  refine (history_not_rolled_back rfl hops).2.2 hclean hpending ⟨otherUpload, rfl⟩ ?_
  obtain ⟨returned, log, hlog⟩ : ∃ returned log, (historyRun sampleHash sampleAccount World.empty
      sampleHistory).log = (⟨otherUpload, rfl⟩, returned) :: log := ⟨_, _, rfl⟩
  rw [hlog] at hcodes ⊢
  obtain rfl : returned = true := (List.cons.inj hcodes).1
  rfl

/-- The three bytes are distributed, the other version is stored on the server, and then a
synchronisation puts the three bytes in its place. -/
theorem rolled_back :
    (historyRun sampleHash sampleAccount World.empty
        [distributeSample, directOther, syncSample]).log.map Prod.snd = [true, true] ∧
    otherUpload.fileOn sampleAccount (historyRun sampleHash sampleAccount World.empty
        [distributeSample, directOther]).world.server = some otherUpload.stream ∧
    otherUpload.fileOn sampleAccount (historyRun sampleHash sampleAccount World.empty
        [distributeSample, directOther, syncSample]).world.server = some sampleUpload.stream ∧
    (historyRun sampleHash sampleAccount World.empty
        [distributeSample, directOther, syncSample]).world.pending = none ∧
    ¬ otherUpload.StoredOn id sampleAccount (historyRun sampleHash sampleAccount World.empty
        [distributeSample, directOther, syncSample]).world.server ∧
    ¬ otherUpload.ShownOn sampleAccount (historyRun sampleHash sampleAccount World.empty
        [distributeSample, directOther, syncSample]).world.server := by
  have hbefore : otherUpload.fileOn sampleAccount (historyRun sampleHash sampleAccount World.empty
      [distributeSample, directOther]).world.server = some otherUpload.stream := by
    decide +kernel
  obtain ⟨hlog, hfile, hpending, hstored, hinfo⟩ :
      (historyRun sampleHash sampleAccount World.empty
        [distributeSample, directOther, syncSample]).log.map Prod.snd = [true, true] ∧
      otherUpload.fileOn sampleAccount (historyRun sampleHash sampleAccount World.empty
        [distributeSample, directOther, syncSample]).world.server = some sampleUpload.stream ∧
      (historyRun sampleHash sampleAccount World.empty
        [distributeSample, directOther, syncSample]).world.pending = none ∧
      ¬ otherUpload.StoredOn id sampleAccount (historyRun sampleHash sampleAccount World.empty
        [distributeSample, directOther, syncSample]).world.server ∧
      fileInfo (historyRun sampleHash sampleAccount World.empty
        [distributeSample, directOther, syncSample]).world.server sampleAccount.user
          (wireName otherUpload.name) = some (3, List.replicate 64 97) := by decide +kernel
  refine ⟨hlog, hbefore, hfile, hpending, hstored, ?_⟩
  rintro ⟨-, size, shown, hshown, htag⟩
  obtain ⟨-, rfl⟩ := Prod.mk.inj (Option.some.inj (hinfo.symm.trans hshown))
  exact absurd htag (by decide)

end PersonalCloud
