import Mathlib.Data.List.Nodup
import Mathlib.Data.List.Perm.Subperm
import Reckoner.Proofs.CompoundUnit.Exponents

/-!
# `Reckoner.Proofs.CompoundUnit.Comparison` — equal units have equal exponents

`sameAs` counts factors and looks up the factors of one unit in the other, in one direction only. On
normal units that decides whether all exponents are equal: as the names of one unit are distinct and
all occur in the other, equally many of them are all of them.

## Contents
- **Look-ups.** The names of a normal list are those with an exponent.
- **Comparison.** `sameAs_iff`, and units whose factors stand in another order: `perm_of_sameAs`.
-/

namespace Reckoner.CompoundUnit

variable {fs gs : List Factor} {u v : CompoundUnit}

/-! ## Look-ups -/

/-- A factor is found under its name. -/
theorem exponentIn_of_mem (h : NormalFactors fs) {f : Factor} (hf : f ∈ fs) :
    exponentIn f.name fs = f.exponent.val := by
  induction fs with
  | nil => exact absurd hf (by simp)
  | cons g fs ih =>
      obtain ⟨hnew, -, hfs⟩ := normalFactors_cons.mp h
      rw [exponentIn_cons]
      rcases List.mem_cons.mp hf with rfl | hmem
      · rw [if_pos rfl]
      · have hne : g.name ≠ f.name := fun heq => hnew (heq ▸ List.mem_map_of_mem hmem)
        rw [if_neg hne, ih hfs hmem]

/-- The names that occur are those with an exponent. -/
theorem mem_names_iff (h : NormalFactors fs) {name : String} :
    name ∈ fs.map Factor.name ↔ exponentIn name fs ≠ 0 := by
  refine ⟨exponentIn_ne_zero h, fun hne => ?_⟩
  by_contra hnot
  exact hne (exponentIn_of_notMem hnot)

/-- Lists with the same exponents have the same names, in some order. -/
theorem names_perm (hfs : NormalFactors fs) (hgs : NormalFactors gs)
    (h : ∀ name, exponentIn name fs = exponentIn name gs) :
    (fs.map Factor.name).Perm (gs.map Factor.name) := by
  refine (List.perm_ext_iff_of_nodup hfs.1 hgs.1).mpr fun name => ?_
  rw [mem_names_iff hfs, mem_names_iff hgs, h name]

/-! ## Comparison -/

/-- The comparison, taken apart. -/
theorem sameAs_eq_true_iff :
    u.sameAs v = true ↔
      u.factors.length = v.factors.length ∧
        ∀ f ∈ u.factors, exponentIn f.name v.factors = f.exponent.val := by
  rw [sameAs, Bool.and_eq_true, beq_iff_eq, List.all_eq_true]
  simp only [beq_iff_eq]
  rfl

/-- **Normal units compare as equal when all their exponents are equal.** -/
theorem sameAs_iff (hu : u.Normal) (hv : v.Normal) :
    u.sameAs v = true ↔ u.exponentOf = v.exponentOf := by
  rw [sameAs_eq_true_iff, funext_iff]
  constructor
  · rintro ⟨hlength, hfound⟩
    -- the names of `u` occur in `v`, and there are no more of them
    have hsubset : u.factors.map Factor.name ⊆ v.factors.map Factor.name := by
      intro name hname
      obtain ⟨f, hf, rfl⟩ := List.mem_map.mp hname
      rw [mem_names_iff hv, hfound f hf]
      exact hu.2 f hf
    have hperm : (u.factors.map Factor.name).Perm (v.factors.map Factor.name) :=
      (hu.1.subperm hsubset).perm_of_length_le (by simp [hlength])
    intro name
    by_cases hname : name ∈ u.factors.map Factor.name
    · obtain ⟨f, hf, rfl⟩ := List.mem_map.mp hname
      exact (exponentIn_of_mem hu hf).trans (hfound f hf).symm
    · have hmissing : name ∉ v.factors.map Factor.name := fun h => hname (hperm.mem_iff.mpr h)
      exact (exponentIn_of_notMem hname).trans (exponentIn_of_notMem hmissing).symm
  · intro h
    refine ⟨by simpa using (names_perm hu hv h).length_eq, fun f hf => ?_⟩
    exact (h f.name).symm.trans (exponentIn_of_mem hu hf)

/-- An exponent that is not 0 is that of a factor. -/
theorem exists_of_exponentIn_ne_zero {name : String} (h : exponentIn name fs ≠ 0) :
    ∃ f ∈ fs, f.name = name ∧ f.exponent.val = exponentIn name fs := by
  induction fs with
  | nil => exact absurd rfl h
  | cons f fs ih =>
      rw [exponentIn_cons] at h ⊢
      split
      · rename_i hname
        exact ⟨f, List.mem_cons_self, hname, rfl⟩
      · rename_i hname
        rw [if_neg hname] at h
        obtain ⟨g, hg, hfound⟩ := ih h
        exact ⟨g, List.mem_cons_of_mem f hg, hfound⟩

/-- **What compares as the same as a normal unit** has the same factors, in some order. -/
theorem perm_of_sameAs (hu : u.Normal) (h : u.sameAs v = true) : v.factors.Perm u.factors := by
  obtain ⟨hlength, hfound⟩ := sameAs_eq_true_iff.mp h
  have hsubset : u.factors ⊆ v.factors := by
    intro f hf
    have hne : exponentIn f.name v.factors ≠ 0 := by
      rw [hfound f hf]
      exact hu.2 f hf
    obtain ⟨⟨name, e⟩, hg, rfl, hexponent⟩ := exists_of_exponentIn_ne_zero hne
    rwa [show e = f.exponent from Exponent.ext (hexponent.trans (hfound f hf))] at hg
  have hnodup : u.factors.Nodup := List.Nodup.of_map Factor.name hu.1
  exact ((List.subperm_of_subset hnodup hsubset).perm_of_length_le hlength.ge).symm

/-- Changing the order of the factors keeps a unit normal. -/
theorem normal_of_perm (hu : u.Normal) (h : v.factors.Perm u.factors) : v.Normal :=
  ⟨(h.map Factor.name).nodup_iff.mpr hu.1, fun f hf => hu.2 f (h.mem_iff.mp hf)⟩

/-- Exponents do not depend on the order of the factors. -/
theorem exponentOf_of_perm (hu : u.Normal) (h : v.factors.Perm u.factors) :
    v.exponentOf = u.exponentOf := by
  have hv := normal_of_perm hu h
  funext name
  by_cases hname : name ∈ v.factors.map Factor.name
  · obtain ⟨f, hf, rfl⟩ := List.mem_map.mp hname
    exact (exponentIn_of_mem hv hf).trans (exponentIn_of_mem hu (h.mem_iff.mp hf)).symm
  · have hmissing : name ∉ u.factors.map Factor.name := fun hmem =>
      hname ((h.map Factor.name).mem_iff.mpr hmem)
    exact (exponentIn_of_notMem hname).trans (exponentIn_of_notMem hmissing).symm

end Reckoner.CompoundUnit
