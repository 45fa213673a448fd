import Mathlib.Data.List.AList
import Mathlib.Tactic

/-! Association lists built from a list of lines, each of which may set one entry. -/
namespace Assoc

variable {ι α : Type*} {β : α → Type*} [DecidableEq α]

/-- The entry a line stands for, written over an earlier one under the same key. -/
def setEntry (m : AList β) : Option (Sigma β) → AList β
  | some e => m.insert e.1 e.2
  | none => m

/-- The entries of the lines; a later line wins. -/
def collect (read : ι → Option (Sigma β)) (lines : List ι) (m : AList β) : AList β :=
  lines.foldl (fun m l => setEntry m (read l)) m

variable {read : ι → Option (Sigma β)} {lines : List ι} {m : AList β}

theorem lookup_foldl_insert {l : List (Sigma β)} (h : l.NodupKeys) (m : AList β) (n : α) :
    (l.foldl (fun m e => m.insert e.1 e.2) m).lookup n = (l.dlookup n).or (m.lookup n) := by
  induction l generalizing m with
  | nil => rfl
  | cons e l ih =>
    obtain ⟨hnot, hl⟩ := List.nodupKeys_cons.mp h
    rw [List.foldl_cons, ih hl]
    by_cases hn : n = e.1
    · subst hn
      obtain ⟨k, v⟩ := e
      rw [List.dlookup_eq_none.mpr hnot, AList.lookup_insert, List.dlookup_cons_eq]
      rfl
    · rw [AList.lookup_insert_ne hn, List.dlookup_cons_ne _ _ hn]

/-- What a sorted list of the entries says is what the list says. -/
theorem lookup_of_mem_sort {r : Sigma β → Sigma β → Prop} [DecidableRel r] {m : AList β}
    {e : Sigma β} (he : e ∈ m.entries.insertionSort r) : m.lookup e.1 = some e.2 :=
  AList.mem_lookup_iff.mpr ((List.mem_insertionSort _).mp he)

/-- The lines that stand for the entries of a list, in another order, give the list back. -/
theorem lookup_collect {l : List (Sigma β)} {write : Sigma β → ι} {m : AList β}
    (hperm : l.Perm m.entries) (hread : ∀ e ∈ l, read (write e) = some e) (n : α) :
    (collect read (l.map write) ∅).lookup n = m.lookup n := by
  have hkeys : l.NodupKeys := (List.perm_nodupKeys hperm).mpr m.nodupKeys
  have heq : collect read (l.map write) ∅ = l.foldl (fun m e => m.insert e.1 e.2) ∅ := by
    rw [collect, List.foldl_map]
    apply List.foldl_ext
    intro m' e he
    rw [hread e he]
    rfl
  rw [heq, lookup_foldl_insert hkeys, AList.lookup_empty, Option.or_none,
    List.perm_dlookup n hkeys hperm]
  rfl

theorem mem_of_lookup_collect {n : α} {v : β n} (h : (collect read lines m).lookup n = some v) :
    (∃ l ∈ lines, read l = some ⟨n, v⟩) ∨ m.lookup n = some v := by
  induction lines generalizing m with
  | nil => exact .inr h
  | cons l ls ih =>
    rcases ih h with ⟨l', hl', hread⟩ | hlookup
    · exact .inl ⟨l', List.mem_cons_of_mem _ hl', hread⟩
    · cases he : read l with
      | none => exact .inr (by simpa [setEntry, he] using hlookup)
      | some e =>
        simp only [setEntry, he] at hlookup
        by_cases hn : n = e.1
        · subst hn
          rw [AList.lookup_insert, Option.some.injEq] at hlookup
          exact .inl ⟨l, List.mem_cons_self, by rw [he, ← hlookup]⟩
        · rw [AList.lookup_insert_ne hn] at hlookup
          exact .inr hlookup

end Assoc
