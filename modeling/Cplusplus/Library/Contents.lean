import Mathlib.Data.List.AList
import Mathlib.Data.List.Count

/-! What the values of a dictionary hold together, when each value holds some elements. -/

namespace Cplusplus.Contents

open List

variable {κ β γ : Type} [DecidableEq κ]

def contents (elements : β → List γ) (dict : AList fun _ : κ => β) : List γ := dict.entries.flatMap fun entry => elements entry.2

def held (elements : β → List γ) (dict : AList fun _ : κ => β) (key : κ) : List γ := (dict.lookup key).elim [] elements

variable (elements : β → List γ) (dict : AList fun _ : κ => β) (key : κ)

theorem contents_erase : (contents elements dict).Perm (held elements dict key ++ contents elements (dict.erase key)) := by
  have rest : (dict.erase key).entries = List.kerase key dict.entries := rfl
  by_cases member : key ∈ dict
  · obtain ⟨value, before, after, _, entries, erased⟩ := exists_of_kerase (AList.mem_keys.mp member)
    have found : dict.lookup key = some value := by
      rw [← Option.mem_def, AList.mem_lookup_iff, entries]
      exact mem_append_right _ mem_cons_self
    rw [held, found, contents, contents, rest, erased, entries]
    simp only [flatMap_append, flatMap_cons, Option.elim_some]
    rw [← append_assoc, ← append_assoc]
    exact perm_append_comm.append_right _
  · have absent : dict.lookup key = none := AList.lookup_eq_none.mpr member
    rw [held, absent, contents, contents, rest, kerase_of_notMem_keys fun inside => member (AList.mem_keys.mpr inside)]
    exact .refl _

theorem contents_insert (value : β) :
    (contents elements (dict.insert key value)).Perm (elements value ++ contents elements (dict.erase key)) := by
  rw [contents, AList.entries_insert]
  exact .refl _

variable [DecidableEq γ] (item : γ)

theorem count_erase : (contents elements (dict.erase key)).count item + (held elements dict key).count item =
    (contents elements dict).count item := by
  have parts := (contents_erase elements dict key).count_eq item
  rw [count_append] at parts
  omega

theorem count_insert (value : β) : (contents elements (dict.insert key value)).count item + (held elements dict key).count item =
    (contents elements dict).count item + (elements value).count item := by
  have parts := (contents_insert elements dict key value).count_eq item
  have erased := count_erase elements dict key item
  rw [count_append] at parts
  omega

end Cplusplus.Contents
