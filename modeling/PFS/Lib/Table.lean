import Mathlib.Data.List.AList

/-! # Finite tables

A table with one value type is an `AList`; its keys are distinct by
construction.  The only operation missing from the library is the pass that
rewrites every entry in place.
-/

namespace PFS.Lib

universe u v

variable {κ : Type u} {β : Type v}

/-- A finite map from `κ` to `β`. -/
abbrev Table (κ : Type u) (β : Type v) := AList (fun _ : κ => β)

namespace Table

/-- Rewrite every entry, keeping the keys and their order. -/
def mapEntries (f : κ → β → β) (t : Table κ β) : Table κ β where
  entries := t.entries.map (fun x => ⟨x.1, f x.1 x.2⟩)
  nodupKeys := by
    have keys := t.nodupKeys
    rw [List.NodupKeys, List.keys] at keys ⊢
    simpa only [List.map_map, Function.comp_def] using keys

variable [DecidableEq κ]

@[simp] theorem lookup_mapEntries (f : κ → β → β) (t : Table κ β) (k : κ) :
    (mapEntries f t).lookup k = (t.lookup k).map (f k) := by
  simp only [AList.lookup, mapEntries]
  induction t.entries with
  | nil => rfl
  | cons x rest ih =>
      obtain ⟨k', v⟩ := x
      by_cases same : k' = k
      · subst same
        simp
      · simp only [List.map_cons]
        rw [List.dlookup_cons_ne _ ⟨k', _⟩ (Ne.symm same), List.dlookup_cons_ne _ ⟨k', _⟩ (Ne.symm same)]
        exact ih

theorem mem_entries {t : Table κ β} {k : κ} {v : β} : ⟨k, v⟩ ∈ t.entries ↔ t.lookup k = some v :=
  AList.mem_lookup_iff.symm

end Table

end PFS.Lib
