import Reckoner.Log

/-!
# `Reckoner.Proofs.Log` — which lines a rotation keeps

A log that is too long should keep its last bytes, from the first line on that begins among them.
The rotation drops whatever stands before the first line end there, so it keeps all those lines but
one: a line that begins exactly at the cut is dropped as if it were the rest of a line.

## Contents
- **Lines.** `StartsLine` and `IsLine`: where lines stand in a log.
- **What to keep.** `lastBytes`, `IsLongest` and `KeepsLines`.
- **The first line.** `afterFirstLine` of a text with and without a line end.
- **Cuts.** `CutsBetweenLines`: the cut falls where a line begins. `suffix_of_startsLine` says what
  is kept of the lines.
- **Rotations.** `rotation_keeps_lines_iff`.
-/

namespace Reckoner.Log

variable {log s t line rest : List UInt8} {keep : Nat}

/-! ## Lines -/

/-- A part of a log up to its end that starts at the beginning of a line: at the start of the log, or
    right behind a line end. -/
def StartsLine (log s : List UInt8) : Prop := s = log ∨ newline :: s <:+ log

instance (log s : List UInt8) : Decidable (StartsLine log s) := inferInstanceAs (Decidable (_ ∨ _))

/-- A line of a log that is complete, with what stands before it and behind its end. -/
structure IsLine (log before line after : List UInt8) : Prop where
  log_eq : log = before ++ (line ++ newline :: after)
  behind : before = [] ∨ ∃ front, before = front ++ [newline]
  single : newline ∉ line

theorem IsLine.startsLine {before after : List UInt8} (h : IsLine log before line after) :
    StartsLine log (line ++ newline :: after) := by
  rcases h.behind with rfl | ⟨front, rfl⟩
  · exact .inl h.log_eq.symm
  · refine .inr ⟨front, ?_⟩
    rw [h.log_eq, List.append_assoc, List.singleton_append]

/-! ## What to keep -/

/-- The last bytes of a log, or all of it if it is shorter. -/
def lastBytes (keep : Nat) (log : List UInt8) : List UInt8 := log.drop (log.length - keep)

/-- The longest part of a log up to its end that fits and starts at the beginning of a line. -/
structure IsLongest (keep : Nat) (log s : List UInt8) : Prop where
  startsLine : StartsLine log s
  fits : s.length ≤ keep
  longest : ∀ t, StartsLine log t → t.length ≤ keep → t.length ≤ s.length

/-- What should be kept of a log: all from the first line on that begins among the last bytes, or
    just these bytes if no line ends there. -/
def KeepsLines (keep : Nat) (log s : List UInt8) : Prop :=
  if newline ∈ lastBytes keep log then IsLongest keep log s else s = lastBytes keep log

theorem lastBytes_suffix (keep : Nat) (log : List UInt8) : lastBytes keep log <:+ log :=
  List.drop_suffix _ _

theorem length_lastBytes (keep : Nat) (log : List UInt8) :
    (lastBytes keep log).length = min keep log.length := by
  rw [lastBytes, List.length_drop]
  omega

/-- Whatever fits is a part of the last bytes. -/
theorem suffix_lastBytes (h : t <:+ log) (hfits : t.length ≤ keep) : t <:+ lastBytes keep log := by
  apply List.suffix_of_suffix_length_le h (lastBytes_suffix keep log)
  have hlength := h.length_le
  rw [length_lastBytes]
  omega

/-! ## The first line -/

theorem dropWhile_line (h : newline ∉ line) (rest : List UInt8) :
    (line ++ rest).dropWhile (· != newline) = rest.dropWhile (· != newline) := by
  apply List.dropWhile_append_of_pos
  intro b hb
  have hne : b ≠ newline := fun heq => h (heq ▸ hb)
  simpa using hne

theorem afterFirstLine_of_notMem {bytes : List UInt8} (h : newline ∉ bytes) :
    afterFirstLine bytes = bytes := by
  have hnone : bytes.dropWhile (· != newline) = [] := by simpa using dropWhile_line h []
  rw [afterFirstLine, hnone]

theorem afterFirstLine_append (h : newline ∉ line) (rest : List UInt8) :
    afterFirstLine (line ++ newline :: rest) = rest := by
  rw [afterFirstLine, dropWhile_line h]
  rfl

/-- What follows a line end is found behind the first line end. -/
theorem suffix_behind_line (hline : newline ∉ line) (h : newline :: t <:+ line ++ newline :: rest) :
    t <:+ rest := by
  obtain ⟨front, hfront⟩ := h
  rcases List.append_eq_append_iff.mp hfront with ⟨more, hmore, heq⟩ | ⟨more, -, heq⟩
  · -- the line end cannot stand inside the first line
    cases more with
    | nil =>
        obtain ⟨-, rfl⟩ := List.cons.inj heq
        exact List.suffix_rfl
    | cons b more =>
        obtain ⟨rfl, -⟩ := List.cons.inj heq
        exact absurd (by simp [hmore]) hline
  · cases more with
    | nil =>
        obtain ⟨-, rfl⟩ := List.cons.inj heq
        exact List.suffix_rfl
    | cons b more =>
        obtain ⟨-, rfl⟩ := List.cons.inj heq
        exact ⟨more ++ [newline], by simp⟩

/-! ## Cuts -/

/-- The last bytes start at the beginning of a line, and that line ends among them. -/
def CutsBetweenLines (keep : Nat) (log : List UInt8) : Prop :=
  StartsLine log (lastBytes keep log) ∧ newline ∈ lastBytes keep log

/-- What is kept of the last bytes. -/
def kept (keep : Nat) (log : List UInt8) : List UInt8 := afterFirstLine (lastBytes keep log)

/-- A line that begins among the last bytes is kept with all behind it, unless it begins exactly at
    the cut. -/
theorem suffix_of_startsLine (hlast : lastBytes keep log = line ++ newline :: rest)
    (hline : newline ∉ line) (ht : StartsLine log t) (hfits : t.length ≤ keep) :
    t = lastBytes keep log ∨ t <:+ rest := by
  rcases ht with rfl | hbehind
  · left
    exact ((lastBytes_suffix keep t).eq_of_length (by rw [length_lastBytes]; omega)).symm
  · have ht : t <:+ lastBytes keep log :=
      suffix_lastBytes ((List.suffix_cons newline t).trans hbehind) hfits
    by_cases hlength : t.length = (lastBytes keep log).length
    · exact .inl (ht.eq_of_length hlength)
    · -- the line end in front of `t` is among the last bytes, too
      right
      have hlt : t.length < (lastBytes keep log).length := Nat.lt_of_le_of_ne ht.length_le hlength
      have hmore : newline :: t <:+ lastBytes keep log :=
        List.suffix_of_suffix_length_le hbehind (lastBytes_suffix keep log) hlt
      rw [hlast] at hmore
      exact suffix_behind_line hline hmore

/-- Where no line ends, all bytes are kept. -/
theorem kept_of_notMem (h : newline ∉ lastBytes keep log) : kept keep log = lastBytes keep log :=
  afterFirstLine_of_notMem h

/-- Where a line ends, the bytes up to its end are dropped. -/
theorem exists_dropped (h : newline ∈ lastBytes keep log) :
    ∃ line, newline ∉ line ∧ lastBytes keep log = line ++ newline :: kept keep log := by
  obtain ⟨line, rest, hlast, hline⟩ := List.eq_append_cons_of_mem h
  refine ⟨line, hline, ?_⟩
  rw [kept, hlast, afterFirstLine_append hline]

theorem isLongest_lastBytes (h : StartsLine log (lastBytes keep log)) :
    IsLongest keep log (lastBytes keep log) where
  startsLine := h
  fits := by
    rw [length_lastBytes]
    omega
  longest t ht hfits := by
    have hsuffix : t <:+ log := by
      rcases ht with rfl | hbehind
      · exact List.suffix_rfl
      · exact (List.suffix_cons newline t).trans hbehind
    exact (suffix_lastBytes hsuffix hfits).length_le

/-- **What is kept is what should be, unless a line begins exactly at the cut.** -/
theorem keepsLines_kept_iff (keep : Nat) (log : List UInt8) :
    KeepsLines keep log (kept keep log) ↔ ¬ CutsBetweenLines keep log := by
  unfold KeepsLines CutsBetweenLines
  by_cases hmem : newline ∈ lastBytes keep log
  · obtain ⟨line, hline, hlast⟩ := exists_dropped hmem
    have hlength : (kept keep log).length < (lastBytes keep log).length := by
      rw [hlast, List.length_append, List.length_cons]
      omega
    rw [if_pos hmem]
    constructor
    · rintro hlongest ⟨hstarts, -⟩
      have hle := hlongest.longest _ hstarts (isLongest_lastBytes hstarts).fits
      omega
    · intro hcut
      have hkept : newline :: kept keep log <:+ lastBytes keep log := ⟨line, hlast.symm⟩
      refine ⟨.inr (hkept.trans (lastBytes_suffix keep log)), ?_, fun t ht hfits => ?_⟩
      · rw [length_lastBytes] at hlength
        omega
      · rcases suffix_of_startsLine hlast hline ht hfits with rfl | hsuffix
        · exact absurd ⟨ht, hmem⟩ hcut
        · exact hsuffix.length_le
  · rw [if_neg hmem, kept_of_notMem hmem]
    exact iff_of_true rfl fun hcut => hmem hcut.2

/-- A complete line among the last bytes is kept exactly if it does not begin at the cut. -/
theorem line_kept_iff {before after : List UInt8} (h : IsLine log before line after)
    (hfits : (line ++ newline :: after).length ≤ keep) :
    line ++ newline :: after <:+ kept keep log ↔ line ++ newline :: after ≠ lastBytes keep log := by
  have hsuffix : line ++ newline :: after <:+ lastBytes keep log :=
    suffix_lastBytes ⟨before, h.log_eq.symm⟩ hfits
  have hmem : newline ∈ lastBytes keep log := hsuffix.subset (by simp)
  obtain ⟨dropped, hdropped, hlast⟩ := exists_dropped hmem
  constructor
  · intro hkept heq
    have hle := hkept.length_le
    rw [heq, hlast, List.length_append, List.length_cons] at hle
    omega
  · intro hne
    exact (suffix_of_startsLine hlast hdropped h.startsLine hfits).resolve_left hne

/-! ## Rotations -/

/-- **A rotation keeps every line that begins behind the cut.** A log within the limit stays as it
    is. Of a longer one the marker and an end are kept. That end is all from the first line on that
    begins among the last bytes, or these bytes if no line ends there, unless the last bytes start
    exactly where a line begins: then they are the longest such end, and that first line is missing.
    So of the complete lines among the last bytes all are kept but one that begins at the cut. -/
theorem rotation_keeps_lines_iff (limit keep : Nat) (log : List UInt8) :
    if log.length ≤ limit then rotate limit keep log = log
    else ∃ s, rotate limit keep log = marker ++ s ∧
      (KeepsLines keep log s ↔ ¬ CutsBetweenLines keep log) ∧
      (CutsBetweenLines keep log →
        ∃ line, newline ∉ line ∧ IsLongest keep log (line ++ newline :: s)) ∧
      ∀ before line after, IsLine log before line after →
        (line ++ newline :: after).length ≤ keep →
          (line ++ newline :: after <:+ s ↔ line ++ newline :: after ≠ lastBytes keep log) := by
  by_cases hlimit : log.length ≤ limit
  · rw [if_pos hlimit, rotate, if_pos hlimit]
  · rw [if_neg hlimit]
    refine ⟨kept keep log, ?_, keepsLines_kept_iff keep log, ?_, fun before line after =>
      line_kept_iff⟩
    · rw [rotate, if_neg hlimit]
      rfl
    · rintro ⟨hstarts, hmem⟩
      obtain ⟨line, hline, hlast⟩ := exists_dropped hmem
      refine ⟨line, hline, ?_⟩
      rw [← hlast]
      exact isLongest_lastBytes hstarts

/-- The rest of `cd` behind the cut is dropped, and the lines behind it are kept. -/
theorem torn_line_dropped :
    let log := "ab\ncd\nef\n".toUTF8.toList
    let s := "ef\n".toUTF8.toList
    ¬ CutsBetweenLines 5 log ∧ rotate 8 5 log = marker ++ s ∧ KeepsLines 5 log s := by
  intro log s
  have hcut : ¬ CutsBetweenLines 5 log := by
    unfold CutsBetweenLines
    decide +kernel
  have hrotated : rotate 8 5 log = marker ++ s := by decide +kernel
  have hkept := rotation_keeps_lines_iff 8 5 log
  rw [if_neg (by decide +kernel)] at hkept
  obtain ⟨s', hs', hiff, -⟩ := hkept
  obtain rfl : s = s' := List.append_cancel_left (hrotated.symm.trans hs')
  exact ⟨hcut, hrotated, hiff.mpr hcut⟩

/-- A log of 81921 lines of 64 bytes each: the last bytes that are to be kept are exactly 16384 lines,
    and one of them is dropped. -/
theorem full_line_dropped :
    let entry : List UInt8 := List.replicate 63 48 ++ [newline]
    let log := (List.replicate 81921 entry).flatten
    let s := (List.replicate 16383 entry).flatten
    rotate sizeLimit keptSize log = marker ++ s ∧ ¬ KeepsLines keptSize log s := by
  intro entry log s
  have hlength : ∀ n, (List.replicate n entry).flatten.length = n * 64 := by
    intro n
    induction n with
    | zero => rfl
    | succ n ih =>
        rw [List.replicate_succ, List.flatten_cons, List.length_append, ih,
          show entry.length = 64 from rfl]
        omega
  -- the cut falls between the first 65537 lines and the others
  have hlog : log = (List.replicate 65537 entry).flatten ++ (List.replicate 16384 entry).flatten := by
    rw [← List.flatten_append, List.replicate_append_replicate]
  have hlast : lastBytes keptSize log = (List.replicate 16384 entry).flatten := by
    rw [lastBytes, hlength 81921, hlog]
    exact List.drop_left' (hlength 65537)
  have hfirst : (List.replicate 16384 entry).flatten = List.replicate 63 48 ++ newline :: s := by
    rw [List.replicate_succ, List.flatten_cons, List.append_assoc, List.singleton_append]
  have hkept : kept keptSize log = s := by
    rw [kept, hlast, hfirst, afterFirstLine_append (by decide)]
  have hcut : CutsBetweenLines keptSize log := by
    constructor
    · right
      have hbefore : (List.replicate 65537 entry).flatten =
          (List.replicate 65536 entry).flatten ++ (List.replicate 63 48 ++ [newline]) := by
        rw [List.replicate_succ', List.flatten_append, List.flatten_singleton]
      refine ⟨(List.replicate 65536 entry).flatten ++ List.replicate 63 48, ?_⟩
      rw [hlast, hlog, hbefore, List.append_assoc, List.append_assoc, List.append_assoc,
        List.singleton_append]
    · rw [hlast, hfirst]
      exact List.mem_append_right _ List.mem_cons_self
  constructor
  · rw [rotate, if_neg (by rw [hlength 81921]; decide)]
    exact congrArg (marker ++ ·) hkept
  · rw [← hkept, keepsLines_kept_iff, Classical.not_not]
    exact hcut

end Reckoner.Log
