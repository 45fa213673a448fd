import PersonalCloud.Core.Manifest

/-! One pass over the pending files: each is probed under the server a quick look at its manifest
shows, and delivered to the one the full read names. -/
namespace PersonalCloud

namespace SyncOnce

/-- What the pass meets at one pending file: what the manifest file holds if it can be opened, which
servers answer a probe, whether the stream comes together, and what a server makes of the rest. -/
structure Waiting where
  content : Option Bytes
  reachable : Bytes → Bool
  rebuilds : Bool
  accepts : Bytes → Bool

/-- What a pass has done; each probed server stands with the one connected to for the delivery. -/
structure SyncResult where
  synced : ℕ := 0
  waiting : ℕ := 0
  failed : ℕ := 0
  contacts : List (Bytes × Option Bytes) := []

/-- The server connected to, and whether the file was delivered and released. -/
def syncOne (w : Waiting) : Option Bytes × Bool :=
  match w.content with
  | none => (none, false)
  | some content =>
      match Manifest.read content with
      | .error _ => (none, false)
      | .ok manifest =>
          if w.rebuilds then (some manifest.server, w.accepts manifest.server) else (none, false)

def syncFile (result : SyncResult) (w : Waiting) : SyncResult :=
  match w.content.bind Manifest.peekServer with
  | none => { result with failed := result.failed + 1 }
  | some server =>
      if w.reachable server = false then
        { result with
          waiting := result.waiting + 1
          contacts := result.contacts ++ [(server, none)] }
      else
        let one := syncOne w
        { result with
          synced := result.synced + if one.2 then 1 else 0
          failed := result.failed + if one.2 then 0 else 1
          contacts := result.contacts ++ [(server, one.1)] }

/-- The pending files one after the other, up to a stop. -/
def syncOnce (files : List Waiting) : SyncResult := files.foldl syncFile {}

def SameServer (c : Bytes × Option Bytes) : Prop := ∀ server, c.2 = some server → server = c.1

/-- The first and the last server line name the same address. -/
def AgreesOnServer (content : Bytes) : Prop :=
  (Manifest.serverLines content).head? = (Manifest.serverLines content).getLast?

variable {content : Bytes} {w : Waiting}

theorem syncOne_server {server : Bytes} (hcontent : w.content = some content)
    (h : (syncOne w).1 = some server) :
    ∃ manifest, Manifest.read content = .ok manifest ∧ manifest.server = server := by
  simp only [syncOne, hcontent] at h
  cases hread : Manifest.read content with
  | error reason =>
    rw [hread] at h
    cases h
  | ok manifest =>
    rw [hread] at h
    simp only at h
    split_ifs at h
    exact ⟨manifest, rfl, Option.some.inj h⟩

/-- One file adds at most one contact, which is right if its server lines agree. -/
theorem syncFile_contacts (result : SyncResult) (hresult : ∀ c ∈ result.contacts, SameServer c)
    (hagrees : ∀ content, w.content = some content → AgreesOnServer content) :
    ∀ c ∈ (syncFile result w).contacts, SameServer c := by
  unfold syncFile
  cases hpeek : w.content.bind Manifest.peekServer with
  | none => exact hresult
  | some server =>
    obtain ⟨content, hcontent, hserver⟩ := Option.bind_eq_some_iff.mp hpeek
    have hnew (reached : Option Bytes) (hreached : ∀ s, reached = some s → s = server) :
        ∀ c ∈ result.contacts ++ [(server, reached)], SameServer c := by
      intro c hc
      rcases List.mem_append.mp hc with hc | hc
      · exact hresult c hc
      · rw [List.mem_singleton.mp hc]
        exact hreached
    by_cases hprobe : w.reachable server = false
    · simp only [if_pos hprobe]
      exact hnew none (by simp)
    · simp only [if_neg hprobe]
      apply hnew
      intro s hs
      obtain ⟨manifest, hread, rfl⟩ := syncOne_server hcontent hs
      have hlast := Manifest.getLast?_serverLines hread
      rw [← hagrees content hcontent, ← Manifest.peekServer_eq_head?, hserver] at hlast
      exact (Option.some.inj hlast).symm

/-- In a pass over manifests whose server lines agree no file is delivered elsewhere. -/
theorem syncOnce_sameServer {files : List Waiting}
    (h : ∀ w ∈ files, ∀ content, w.content = some content → AgreesOnServer content) :
    ∀ c ∈ (syncOnce files).contacts, SameServer c := by
  have hfold (result : SyncResult) (hresult : ∀ c ∈ result.contacts, SameServer c) :
      ∀ c ∈ (files.foldl syncFile result).contacts, SameServer c := by
    induction files generalizing result with
    | nil => exact hresult
    | cons w files ih =>
      obtain ⟨hw, hfiles⟩ := List.forall_mem_cons.mp h
      exact ih hfiles _ (syncFile_contacts result hresult hw)
  exact hfold {} (by simp)

/-- Of a manifest that is accepted the quick look always sees an address. It is the one of the full
read, and the delivery goes where the probe went, exactly if the first and the last server line
agree. -/
theorem peekServer_agrees_iff {manifest : Manifest} (h : Manifest.read content = .ok manifest) :
    (Manifest.peekServer content).isSome = true ∧
    ((Manifest.peekServer content = some manifest.server ∧
      ∀ w : Waiting, w.content = some content → ∀ c ∈ (syncOnce [w]).contacts, SameServer c) ↔
      AgreesOnServer content) := by
  have hlast := Manifest.getLast?_serverLines h
  constructor
  · rw [Manifest.peekServer_eq_head?, List.isSome_head?]
    intro hnil
    rw [hnil] at hlast
    cases hlast
  · rw [Manifest.peekServer_eq_head?, AgreesOnServer, hlast]
    refine ⟨And.left, fun hagrees => ⟨hagrees, fun w hw => ?_⟩⟩
    apply syncOnce_sameServer
    intro w' hw' content' hcontent'
    obtain rfl := List.mem_singleton.mp hw'
    rw [hw] at hcontent'
    obtain rfl := Option.some.inj hcontent'
    rw [AgreesOnServer, hagrees, hlast]

theorem peekServer_agrees_sample :
    Manifest.peekServer Manifest.sampleManifest.text = some Manifest.sampleManifest.server := by
  have hread : Manifest.read Manifest.sampleManifest.text = .ok Manifest.sampleManifest := by
    decide +kernel
  exact ((peekServer_agrees_iff hread).2.mpr (by unfold AgreesOnServer; decide +kernel)).1

def movedManifest : Bytes := Lines.join 10 [ascii "pcs-manifest 2", ascii "server old:9000",
  ascii "name a.txt", ascii "", ascii " server  new:9000 "]

/-- The old server is probed and the new one delivered to. -/
theorem peekServer_differs :
    Manifest.read movedManifest =
      .ok { server := ascii "new:9000", name := ascii "a.txt" } ∧
    Manifest.peekServer movedManifest = some (ascii "old:9000") ∧
    (syncOnce [⟨some movedManifest, fun _ => true, true, fun _ => true⟩]).contacts =
      [(ascii "old:9000", some (ascii "new:9000"))] := by
  decide +kernel

end SyncOnce

end PersonalCloud
