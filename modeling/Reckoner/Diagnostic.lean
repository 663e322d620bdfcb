/-!
# `Reckoner.Diagnostic` — remarks that accompany a result

A diagnostic never stops an evaluation. `merge` collects the diagnostics of several evaluations
and keeps each of them once, in order of first appearance.
-/

namespace Reckoner

/-- Collecting what is not yet known appends it, everything at its first occurrence. -/
theorem foldl_insert_eq_append {α : Type} [DecidableEq α] (known new : List α) :
    new.foldl (fun as a => if a ∈ as then as else as ++ [a]) known =
      known ++ (new.filter (· ∉ known)).eraseDups := by
  induction new generalizing known with
  | nil => simp
  | cons a new ih =>
    rw [List.foldl_cons, ih]
    by_cases ha : a ∈ known
    · simp [ha]
    · have hfilter : new.filter (· ∉ known ++ [a]) =
          (new.filter (· ∉ known)).filter fun x => !x == a := by
        rw [List.filter_filter]
        apply List.filter_congr
        intro x _
        by_cases hx : x ∈ known
        · simp [hx]
        · simp [hx]
          rfl
      rw [if_neg ha, hfilter, List.filter_cons_of_pos (by simpa using ha), List.eraseDups_cons,
        List.append_assoc, List.singleton_append]

/-- A remark on a formula or on the units of its operands. -/
inductive Diagnostic where
  /-- Two units that should agree, as they are displayed. -/
  | unitMismatch (expected actual : String)
  /-- A symbol of the formula that no variable carries. -/
  | missingVariable (symbol : String)
  /-- Any other remark. -/
  | invalidFormula (message : String)
deriving DecidableEq, Repr

namespace Diagnostic

/-- The remark in words. -/
def text : Diagnostic → String
  | .unitMismatch expected actual => "unit mismatch: expected " ++ expected ++ ", got " ++ actual
  | .missingVariable symbol => "unknown symbol '" ++ symbol ++ "'"
  | .invalidFormula message => "invalid formula: " ++ message

/-- Appends the diagnostics that are not yet present. -/
def merge (known new : List Diagnostic) : List Diagnostic :=
  new.foldl (fun ds d => if d ∈ ds then ds else ds ++ [d]) known

/-- Every diagnostic once, in order of first appearance. -/
def distinct (ds : List Diagnostic) : List Diagnostic := merge [] ds

@[simp] theorem merge_nil (known : List Diagnostic) : merge known [] = known := rfl

theorem mem_merge {known new : List Diagnostic} {d : Diagnostic} :
    d ∈ merge known new ↔ d ∈ known ∨ d ∈ new := by
  induction new generalizing known with
  | nil => simp
  | cons e new ih =>
    simp only [merge, List.foldl_cons] at ih ⊢
    rw [ih]
    split
    · rename_i h
      simp only [List.mem_cons]
      constructor
      · rintro (hd | hd)
        · exact .inl hd
        · exact .inr (.inr hd)
      · rintro (hd | rfl | hd)
        · exact .inl hd
        · exact .inl h
        · exact .inr hd
    · simp only [List.mem_append, List.mem_cons, List.not_mem_nil, or_false]
      exact or_assoc

theorem nodup_merge {known new : List Diagnostic} (h : known.Nodup) : (merge known new).Nodup := by
  induction new generalizing known with
  | nil => exact h
  | cons e new ih =>
    simp only [merge, List.foldl_cons] at ih ⊢
    apply ih
    split
    · exact h
    · rename_i he
      rw [List.nodup_append]
      refine ⟨h, by simp, ?_⟩
      rintro a ha b hb rfl
      simp only [List.mem_cons, List.not_mem_nil, or_false] at hb
      exact he (hb ▸ ha)

/-- Merging appends what is new, each diagnostic at its first occurrence. -/
theorem merge_eq_append (known new : List Diagnostic) :
    merge known new = known ++ (new.filter (· ∉ known)).eraseDups :=
  foldl_insert_eq_append known new

/-- Diagnostics that are present already are not kept again. -/
theorem merge_of_subset {known new : List Diagnostic} (h : new ⊆ known) :
    merge known new = known := by
  have hfilter : new.filter (· ∉ known) = [] :=
    List.filter_eq_nil_iff.mpr fun d hd => by simpa using h hd
  rw [merge_eq_append, hfilter]
  simp

theorem distinct_append (ds new : List Diagnostic) :
    distinct (ds ++ new) = merge (distinct ds) new :=
  List.foldl_append

theorem distinct_eq_eraseDups (ds : List Diagnostic) : distinct ds = ds.eraseDups := by
  rw [distinct, merge_eq_append, List.filter_eq_self.mpr (by simp), List.nil_append]

/-- Merging list by list merges the lists behind one another. -/
theorem foldl_merge {α : Type} (warnings : α → List Diagnostic) (as : List α)
    (known : List Diagnostic) :
    as.foldl (fun ds a => merge ds (warnings a)) known = merge known (as.flatMap warnings) := by
  rw [merge, List.foldl_flatMap]
  rfl

end Diagnostic

end Reckoner
