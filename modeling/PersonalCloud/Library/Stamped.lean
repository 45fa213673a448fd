import Mathlib.Tactic

/-! A cell whose content is replaced from time to time, each time under a stamp of its own, and what
a reader may conclude from a stamp it has seen. -/
namespace Stamped

/-- The content under its stamp, and what it was before, the newest first. -/
structure Cell (τ α : Type*) where
  now : τ × α
  before : List (τ × α)

namespace Cell

variable {τ α : Type*}

def stamp (c : Cell τ α) : τ := c.now.1

def value (c : Cell τ α) : α := c.now.2

def stamps (c : Cell τ α) : List τ := (c.now :: c.before).map Prod.fst

def version (c : Cell τ α) : ℕ := c.before.length

def valueAt (c : Cell τ α) (n : ℕ) : Option α := ((c.now :: c.before).reverse[n]?).map Prod.snd

def replace (c : Cell τ α) (t : τ) (v : α) : Cell τ α := ⟨(t, v), c.now :: c.before⟩

/-- The stamp was once seen on the cell, and as long as it is still there `P` holds. -/
def While (c : Cell τ α) (t : τ) (P : Prop) : Prop := t ∈ c.stamps ∧ (c.stamp = t → P)

variable {c : Cell τ α} {s t : τ} {v : α} {P Q : Prop} {n : ℕ}

theorem stamp_mem_stamps (c : Cell τ α) : c.stamp ∈ c.stamps := List.mem_cons_self

@[simp] theorem stamp_replace : (c.replace t v).stamp = t := rfl

@[simp] theorem value_replace : (c.replace t v).value = v := rfl

@[simp] theorem version_replace : (c.replace t v).version = c.version + 1 := rfl

theorem valueAt_version (c : Cell τ α) : c.valueAt c.version = some c.value := by
  simp [valueAt, version, value]

theorem valueAt_replace (h : c.valueAt n = some v) (t : τ) (w : α) :
    (c.replace t w).valueAt n = some v := by
  obtain ⟨e, he, rfl⟩ := Option.map_eq_some_iff.mp h
  have hlt := (List.getElem?_eq_some_iff.mp he).1
  rw [valueAt, replace, List.reverse_cons, List.getElem?_append_left hlt, he]
  rfl

/-- What holds now holds as long as the present stamp is there. -/
theorem while_stamp (h : P) : c.While c.stamp P := ⟨c.stamp_mem_stamps, fun _ => h⟩

theorem While.imp (h : c.While t P) (himp : c.stamp = t → P → Q) : c.While t Q :=
  ⟨h.1, fun ht => himp ht (h.2 ht)⟩

/-- Under a fresh stamp nothing has to hold for the old ones. -/
theorem While.replace (h : c.While t P) (hfresh : s ∉ c.stamps) (v : α) :
    (c.replace s v).While t Q := by
  refine ⟨List.mem_cons_of_mem _ h.1, fun hs => ?_⟩
  rw [stamp_replace] at hs
  exact absurd (hs ▸ h.1) hfresh

end Cell

end Stamped
