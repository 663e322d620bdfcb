import Reckoner.Proofs.Decimal.Digits
import Reckoner.Proofs.Timestamp.Calendar
import Reckoner.Timestamp.Text

/-!
# `Reckoner.Proofs.Timestamp.Text` — a written instant is read back

## Contents
- **Numbers.** `fixedNumber?_padded`: digits in a column of a fixed width.
- **Dates.** `year?_yearChars` and `date?_chars`.
- **Times.** `clock?_chars` and `fraction?_chars`.
- **Instants.** `read?_render`.
-/

namespace Reckoner.Timestamp

open Decimal (natOfDigits digitsOf)

/-! ## Numbers -/

section Padding

variable {width n : Nat}

theorem length_padded (hwidth : 0 < width) (h : n < 10 ^ width) : (padded width n).length = width := by
  have hlength := (Decimal.length_digitsOf_le_iff hwidth).mpr h
  simp only [padded, List.length_append, List.length_replicate]
  omega

theorem natOfDigits_padded (width n : Nat) : natOfDigits (padded width n) = n := by
  rw [padded, Decimal.natOfDigits_zeros_append, Decimal.natOfDigits_digitsOf]

theorem isDigit_of_mem_padded {c : Char} (h : c ∈ padded width n) : c.isDigit = true := by
  rcases List.mem_append.mp h with hzero | hdigit
  · exact Decimal.isDigit_of_mem_zeros hzero
  · exact Decimal.isDigit_of_mem_digitsOf hdigit

/-- A number in a column is read, whatever stands behind it. -/
theorem fixedNumber?_padded (hwidth : 0 < width) (h : n < 10 ^ width) (rest : List Char) :
    fixedNumber? width (padded width n ++ rest) = some (n, rest) := by
  have hlength := length_padded hwidth h
  have htake : (padded width n ++ rest).take width = padded width n := List.take_left' hlength
  have hdrop : (padded width n ++ rest).drop width = rest := List.drop_left' hlength
  have hdigits : (padded width n).all Char.isDigit = true :=
    List.all_eq_true.mpr fun _ => isDigit_of_mem_padded
  unfold fixedNumber?
  dsimp only
  rw [htake, hdrop, hlength, hdigits, natOfDigits_padded, beq_self_eq_true]
  rfl

theorem twoDigits?_padded {largest : Nat} (h : n ≤ largest) (hlargest : largest < 100)
    (rest : List Char) : twoDigits? largest (padded 2 n ++ rest) = some (n, rest) := by
  rw [twoDigits?, fixedNumber?_padded (by decide) (by omega), Option.filter_some,
    decide_eq_true h]
  rfl

/-- A column is not empty, and begins with a digit. -/
theorem padded_eq_cons (hwidth : 0 < width) (h : n < 10 ^ width) :
    ∃ c tail, padded width n = c :: tail ∧ c.isDigit = true := by
  have hne : padded width n ≠ [] :=
    List.ne_nil_of_length_pos (by rw [length_padded hwidth h]; exact hwidth)
  obtain ⟨c, tail, hcons⟩ := List.exists_cons_of_ne_nil hne
  exact ⟨c, tail, hcons, isDigit_of_mem_padded (hcons ▸ List.mem_cons_self)⟩

end Padding

/-! ## Dates -/

section Dates

variable (rest : List Char)

/-- A year without a sign has four digits. -/
theorem year?_of_isDigit {c : Char} (h : c.isDigit = true) (cs : List Char) :
    year? (c :: cs) = (fixedNumber? 4 (c :: cs)).map fun (n, rest) => ((n : Int), rest) := by
  unfold year?
  split
  · rename_i heq
    rw [(List.cons.inj heq).1] at h
    exact absurd h (by decide)
  · rename_i heq
    rw [(List.cons.inj heq).1] at h
    exact absurd h (by decide)
  · rfl

theorem year?_yearChars {year : Int} (h : year.natAbs ≤ 9999) :
    year? (yearChars year ++ rest) = some (year, rest) := by
  unfold yearChars
  split
  · rename_i hfour
    simp only [Bool.and_eq_true, decide_eq_true_eq] at hfour
    have hfits : year.toNat < 10 ^ 4 := by omega
    have hread := fixedNumber?_padded (by decide) hfits rest
    obtain ⟨c, tail, hcons, hdigit⟩ := padded_eq_cons (by decide) hfits
    rw [hcons, List.cons_append] at hread ⊢
    have hvalue : (year.toNat : Int) = year := Int.toNat_of_nonneg hfour.1
    rw [year?_of_isDigit hdigit, hread, Option.map_some]
    dsimp only
    rw [hvalue]
  · -- of years with a sign, minus zero alone is refused
    rename_i hsix
    simp only [Bool.and_eq_true, decide_eq_true_eq] at hsix
    have hnegative : year < 0 := by omega
    have hread : fixedNumber? 6 (padded 6 year.natAbs ++ rest) = some (year.natAbs, rest) :=
      fixedNumber?_padded (by decide) (by omega) rest
    have hnonzero : (year.natAbs != 0) = true := by
      rw [bne_iff_ne]
      omega
    have hvalue : -(year.natAbs : Int) = year := by omega
    rw [if_pos hnegative, List.cons_append]
    change ((fixedNumber? 6 _).filter fun r => r.1 != 0).map (fun r => (-(r.1 : Int), r.2)) = _
    rw [hread, Option.filter_some, hnonzero, if_pos rfl, Option.map_some]
    dsimp only
    rw [hvalue]

/-- A date is read as it is written. -/
theorem date?_chars {d : Date} (hvalid : d.isValid = true) (hyear : d.year.natAbs ≤ 9999) :
    date? (yearChars d.year ++ (dayChars d ++ rest)) = some (d, rest) := by
  have hbounds : d.month < 100 ∧ d.day < 100 := by
    unfold Date.isValid daysInMonth at hvalid
    simp only [Bool.and_eq_true, decide_eq_true_eq] at hvalid
    split at hvalid <;> (try split at hvalid) <;> omega
  have hmonth : ∀ rest, fixedNumber? 2 (padded 2 d.month ++ rest) = some (d.month, rest) :=
    fixedNumber?_padded (by decide) hbounds.1
  have hday : ∀ rest, fixedNumber? 2 (padded 2 d.day ++ rest) = some (d.day, rest) :=
    fixedNumber?_padded (by decide) hbounds.2
  have hchars : dayChars d ++ rest =
      '-' :: (padded 2 d.month ++ '-' :: (padded 2 d.day ++ rest)) := by
    simp [dayChars]
  rw [date?, year?_yearChars _ hyear, hchars]
  simp only [Option.bind_eq_bind, Option.bind_some, separator?, List.head?_cons, List.drop_one,
    List.tail_cons, beq_self_eq_true, if_true, hmonth, hday, hvalid, decide_eq_true hyear,
    Bool.and_self]

end Dates

/-! ## Times -/

section Times

variable (rest : List Char)

/-- Hours, minutes and seconds are read as they are written. -/
theorem clock?_chars {second : Nat} (h : second < 86400) :
    clock? 23 60 (minuteChars second ++ ':' :: (padded 2 (second % 60) ++ rest)) =
      some (second, true, rest) := by
  have hhour : second / 3600 ≤ 23 := by omega
  have hminute : second / 60 % 60 ≤ 59 := by omega
  have hsecond : second % 60 ≤ 60 := by omega
  have hsum : 3600 * (second / 3600) + 60 * (second / 60 % 60) + min (second % 60) 59 = second := by
    omega
  have hchars : minuteChars second ++ ':' :: (padded 2 (second % 60) ++ rest) =
      padded 2 (second / 3600) ++ ':' :: (padded 2 (second / 60 % 60) ++
        ':' :: (padded 2 (second % 60) ++ rest)) := by
    simp [minuteChars]
  rw [hchars, clock?, twoDigits?_padded hhour (by decide)]
  simp only [Option.bind_eq_bind, Option.bind_some, continues, List.head?_cons, List.drop_one,
    List.tail_cons, beq_self_eq_true, if_true, Bool.not_true, Bool.false_eq_true, if_false,
    twoDigits?_padded hminute (by decide), twoDigits?_padded hsecond (by decide), hsum,
    Option.pure_def]

/-- The digits of a fraction that are written. -/
def fractionDigits (n : Nat) : List Char := ((padded 9 n).reverse.dropWhile (· == '0')).reverse

/-- The zeros that are not written make up nine digits. -/
theorem padded_eq_fractionDigits_append (n : Nat) :
    ∃ k, padded 9 n = fractionDigits n ++ List.replicate k '0' := by
  have hzeros : (padded 9 n).reverse.takeWhile (· == '0') =
      List.replicate ((padded 9 n).reverse.takeWhile (· == '0')).length '0' := by
    refine List.eq_replicate_of_mem fun c hc => ?_
    simpa using List.all_eq_true.mp List.all_takeWhile c hc
  have hparts := congrArg List.reverse
    (List.takeWhile_append_dropWhile (p := (· == '0')) (l := (padded 9 n).reverse))
  rw [List.reverse_append, List.reverse_reverse, hzeros, List.reverse_replicate] at hparts
  exact ⟨_, hparts.symm⟩

/-- A fraction is read as it is written. -/
theorem fraction?_chars {n : Nat} (h : n < 10 ^ 9) :
    fraction? (fractionChars n ++ 'Z' :: rest) = some (n, 'Z' :: rest) := by
  unfold fractionChars
  by_cases hzero : n = 0
  · rw [hzero]
    rfl
  · obtain ⟨k, hk⟩ := padded_eq_fractionDigits_append n
    have hlength := length_padded (by decide) h
    have hvalue := natOfDigits_padded 9 n
    -- the digits that are written and the zeros behind them are nine, and the reader counts on that
    rw [hk, List.length_append, List.length_replicate] at hlength
    rw [hk, Decimal.natOfDigits_append_zeros] at hvalue
    have hdigits : ∀ c ∈ fractionDigits n, c.isDigit = true := fun c hc =>
      isDigit_of_mem_padded (hk ▸ List.mem_append_left _ hc)
    have hne : fractionDigits n ≠ [] := by
      intro hnil
      rw [hnil] at hvalue
      exact hzero (by rw [← hvalue]; exact Nat.zero_mul _)
    have hboundary : ∀ c ∈ ('Z' :: rest).head?, c.isDigit = false := by
      intro c hc
      obtain rfl := Option.some.inj hc
      decide
    have hplaces : 9 - (fractionDigits n).length = k := by omega
    rw [if_neg (by simpa using hzero)]
    change fraction? ('.' :: (fractionDigits n ++ 'Z' :: rest)) = _
    have hsome : ((fractionDigits n).isEmpty || decide (9 < (fractionDigits n).length)) = false := by
      rw [Bool.or_eq_false_iff, List.isEmpty_eq_false_iff, decide_eq_false_iff_not]
      exact ⟨hne, by omega⟩
    simp only [fraction?, Decimal.takeWhile_of_boundary hdigits hboundary,
      Decimal.dropWhile_of_boundary hdigits hboundary, hsome, hplaces, Nat.pow_eq, hvalue]
    rfl

end Times

/-! ## Instants -/

/-- A time of day is read as it is written, up to the mark of UTC. -/
theorem time?_chars {second nanosecond : Nat} (hsecond : second < 86400)
    (hnanosecond : nanosecond < 10 ^ 9) (rest : List Char) :
    time? (minuteChars second ++ ':' :: (padded 2 (second % 60) ++
      (fractionChars nanosecond ++ 'Z' :: rest))) = some (second, nanosecond, 'Z' :: rest) := by
  rw [time?, clock?_chars _ hsecond]
  simp [fraction?_chars rest hnanosecond]

/-- **A written instant is read back.** -/
theorem read?_render {t : Timestamp} (h : t.inRange = true) : read? t.render = some t := by
  have hsecond : t.secondOfDay < 86400 := by
    unfold secondOfDay secondsPerDay
    omega
  have hnanosecond : t.nanosecond < 10 ^ 9 := by
    unfold nanosecond perSecond
    omega
  have hday : t.date.toDays = t.seconds / secondsPerDay := toDays_ofDays _
  have hparts : ((t.seconds / secondsPerDay) * secondsPerDay + t.secondOfDay) * perSecond +
      t.nanosecond = t.nanoseconds := by
    unfold secondOfDay nanosecond seconds secondsPerDay perSecond
    omega
  have hchars : t.render.toList = yearChars t.date.year ++ (dayChars t.date ++
      'T' :: (minuteChars t.secondOfDay ++ ':' :: (padded 2 (t.secondOfDay % 60) ++
        (fractionChars t.nanosecond ++ 'Z' :: [])))) := by
    simp [render]
  have hdate : ∀ rest, date? (yearChars t.date.year ++ (dayChars t.date ++ rest)) =
      some (t.date, rest) := fun rest => date?_chars rest (isValid_ofDays _) (natAbs_year_le h)
  have hremarks : areRemarks [] = true := by decide
  rw [read?, hchars, ofChars?]
  simp only [Option.bind_eq_bind, Option.bind_some, hdate, time?_chars hsecond hnanosecond,
    offset?, hremarks, hday, Int.sub_zero, hparts]
  exact if_pos h

end Reckoner.Timestamp
