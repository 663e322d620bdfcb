import Mathlib
import Reckoner.Statistics.Summary

/-!
# `Reckoner.Proofs.Statistics.Order` — summaries ignore the order of samples

Sums of doubles depend on the order of what is summed. Summaries do not, since samples are sorted
first, and there is only one way to sort them: the total order tells any two doubles apart that differ
in a bit. This is so also for the many patterns of bits that stand for no number, of which a double
here keeps only one; they are told apart as words.

## Contents
- **Ranks.** `wordRank`, which no two words share.
- **Sorting.** `sortSamples_eq_iff`, and the same for words.
- **Summaries** of doubles and of words; `summary_ignores_order`.
-/

namespace Reckoner.Statistics

/-! ## Ranks -/

/-- The rank of a word among all words that are the bits of a double. -/
def wordRank (w : UInt64) : Int :=
  if w.toNat < Binary.signWeight then w.toNat else (Binary.signWeight : Int) - 1 - w.toNat

theorem rank_eq (x : Float) : rank x = wordRank x.toBits := rfl

/-- **No two words share a rank.** Without a sign they rank from 0 upwards, with a sign from -1
    downwards. -/
theorem wordRank_injective : Function.Injective wordRank := by
  intro v w h
  refine UInt64.toNat_inj.mp ?_
  unfold wordRank at h
  split at h <;> split at h <;> omega

theorem rank_injective : Function.Injective rank := by
  intro x y h
  rw [rank_eq, rank_eq] at h
  exact Float.toBits_inj.mp (wordRank_injective h)

/-! ## Sorting -/

/-- Words in the total order of the doubles that they are the bits of. -/
def sortWords (words : List UInt64) : List UInt64 :=
  words.mergeSort fun v w => wordRank v ≤ wordRank w

/-- **There is one way to sort** what is told apart by its rank. -/
theorem mergeSort_eq_iff {α : Type} {key : α → Int} (hkey : Function.Injective key)
    {l sorted : List α} : (l.mergeSort fun x y => key x ≤ key y) = sorted ↔
      sorted.Perm l ∧ sorted.Pairwise fun x y => key x ≤ key y := by
  have hperm := List.mergeSort_perm l fun x y => key x ≤ key y
  have hsorted : (l.mergeSort fun x y => key x ≤ key y).Pairwise fun x y => key x ≤ key y := by
    refine (List.pairwise_mergeSort ?_ ?_ l).imp fun h => of_decide_eq_true h
    · intro x y z hxy hyz
      exact decide_eq_true (Int.le_trans (of_decide_eq_true hxy) (of_decide_eq_true hyz))
    · intro x y
      rw [Bool.or_eq_true, decide_eq_true_eq, decide_eq_true_eq]
      exact Int.le_total (key x) (key y)
  constructor
  · rintro rfl
    exact ⟨hperm, hsorted⟩
  · rintro ⟨hperm', hsorted'⟩
    exact List.Perm.eq_of_pairwise (fun x y _ _ hxy hyx => hkey (Int.le_antisymm hxy hyx)) hsorted
      hsorted' (hperm.trans hperm'.symm)

theorem sortSamples_eq_iff {samples sorted : List Float} : sortSamples samples = sorted ↔
    sorted.Perm samples ∧ sorted.Pairwise fun x y => rank x ≤ rank y :=
  mergeSort_eq_iff rank_injective

theorem sortWords_eq_iff {words sorted : List UInt64} : sortWords words = sorted ↔
    sorted.Perm words ∧ sorted.Pairwise fun v w => wordRank v ≤ wordRank w :=
  mergeSort_eq_iff wordRank_injective

theorem sortSamples_perm {samples samples' : List Float} (h : samples'.Perm samples) :
    sortSamples samples' = sortSamples samples := by
  obtain ⟨hperm, hsorted⟩ := sortSamples_eq_iff.mp (Eq.refl (sortSamples samples))
  exact sortSamples_eq_iff.mpr ⟨hperm.trans h.symm, hsorted⟩

theorem sortWords_perm {words words' : List UInt64} (h : words'.Perm words) :
    sortWords words' = sortWords words := by
  obtain ⟨hperm, hsorted⟩ := sortWords_eq_iff.mp (Eq.refl (sortWords words))
  exact sortWords_eq_iff.mpr ⟨hperm.trans h.symm, hsorted⟩

/-! ## Summaries -/

/-- The summary of doubles that are given by their bits, whatever they stand for. -/
def Summary.ofWords (words : List UInt64) : Option Summary :=
  Summary.ofSorted ((sortWords words).map Float.ofBits)

/-- Doubles are sorted as their bits are. -/
theorem map_ofBits_sortWords (samples : List Float) :
    (sortWords (samples.map Float.toBits)).map Float.ofBits = sortSamples samples := by
  have hbits : sortWords (samples.map Float.toBits) = (sortSamples samples).map Float.toBits :=
    (List.map_mergeSort (f := Float.toBits) fun _ _ _ _ => rfl).symm
  rw [hbits, List.map_map]
  exact (List.map_congr_left fun x _ => Float.ofBits_toBits x).trans (List.map_id _)

/-- **Summaries ignore the order of samples.** The sorted samples are their only arrangement in the
    total order, so that whatever order the samples had, they are sorted into the same list and have
    the same summary. Equal doubles have equal bits. Samples that are given as words, with any bits for
    what is not a number, are sorted bit for bit into the same list as well. -/
theorem summary_ignores_order :
    (∀ samples sorted : List Float, sortSamples samples = sorted ↔
      sorted.Perm samples ∧ sorted.Pairwise fun x y => totalOrder x y = true) ∧
    (∀ x y : Float, totalOrder x y = true → totalOrder y x = true → x.toBits = y.toBits) ∧
    (∀ samples samples' : List Float, samples'.Perm samples →
      sortSamples samples' = sortSamples samples ∧
        Summary.ofSamples samples' = Summary.ofSamples samples) ∧
    (∀ words words' : List UInt64, words'.Perm words →
      sortWords words' = sortWords words ∧ Summary.ofWords words' = Summary.ofWords words) ∧
    ∀ samples : List Float, Summary.ofWords (samples.map Float.toBits) =
      Summary.ofSamples samples := by
  refine ⟨fun samples sorted => ?_, fun x y hxy hyx => ?_, fun samples samples' h => ?_,
    fun words words' h => ?_, fun samples => ?_⟩
  · simp only [totalOrder, decide_eq_true_eq]
    exact sortSamples_eq_iff
  · exact congrArg Float.toBits
      (rank_injective (Int.le_antisymm (of_decide_eq_true hxy) (of_decide_eq_true hyx)))
  · have hsorted := sortSamples_perm h
    exact ⟨hsorted, by rw [Summary.ofSamples, hsorted, Summary.ofSamples]⟩
  · have hsorted := sortWords_perm h
    exact ⟨hsorted, by rw [Summary.ofWords, hsorted, Summary.ofWords]⟩
  · rw [Summary.ofWords, map_ofBits_sortWords, Summary.ofSamples]

/-- Both zeros, both infinities and what is not a number, from the greatest to the least, are sorted
    into the opposite order. -/
theorem specials_ignore_order :
    let nan : Float := 0.0 / 0.0
    let samples : List Float := [nan, 1.0 / 0.0, 1.5, 0.0, -0.0, -1.5, -1.0 / 0.0]
    samples.reverse.Perm samples ∧ sortSamples samples = samples.reverse ∧
      sortSamples samples.reverse = sortSamples samples ∧
      Summary.ofSamples samples.reverse = Summary.ofSamples samples := by
  intro nan samples
  have hperm := List.reverse_perm samples
  obtain ⟨hsorts, -, hdoubles, -⟩ := summary_ignores_order
  obtain ⟨hsame, hsummary⟩ := hdoubles samples samples.reverse hperm
  have hsorted : samples.reverse.Pairwise fun x y => totalOrder x y = true := by decide +kernel
  exact ⟨hperm, (hsorts samples samples.reverse).mpr ⟨hperm, hsorted⟩, hsame, hsummary⟩

end Reckoner.Statistics
