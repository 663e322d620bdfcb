import Reckoner.Proofs.Text.Words
import Reckoner.Proofs.Yaml.Plain

/-!
# `Reckoner.Proofs.Yaml.Block` — block scalars are read line by line

The lines of a block have the same indentation, and the first line with text shows it. The block
ends in front of a line that is indented less, or with the text.

## Contents
- **Lines.** `blockBody`: lines with their indentation, cut apart again.
- **Widths.** The indentation of a block, and the lines that are inside of it.
- **Scalars.** `content_block`.
-/

namespace Reckoner.Yaml

/-! ## Lines -/

section Lines

variable {w m : Nat} {lines : List (List Char)} {line text : List Char}

/-- Lines with their indentation, each with the line break that ends it. -/
def blockBody (w : Nat) (lines : List (List Char)) : List Char :=
  lines.flatMap fun line => spaces w ++ line ++ ['\n']

theorem indentedLines_break (w : Nat) (lines : List (List Char)) (rest : List Char) :
    indentedLines w lines ++ '\n' :: rest = '\n' :: (blockBody w lines ++ rest) := by
  induction lines with
  | nil => rfl
  | cons line lines ih =>
      have hfirst : indentedLines w (line :: lines) ++ '\n' :: rest =
          '\n' :: (spaces w ++ line) ++ (indentedLines w lines ++ '\n' :: rest) := by
        simp [indentedLines]
      rw [hfirst, ih]
      simp [blockBody]

theorem splitOn_blockBody (hlines : ∀ line ∈ lines, '\n' ∉ line) (rest : List Char) :
    Text.splitOn (· == '\n') (blockBody w lines ++ rest) =
      lines.map (spaces w ++ ·) ++ Text.splitOn (· == '\n') rest := by
  induction lines with
  | nil => rfl
  | cons line lines ih =>
      rw [List.forall_mem_cons] at hlines
      have hrun : ∀ c ∈ spaces w ++ line, (c == '\n') = false := by
        intro c hc
        rcases List.mem_append.mp hc with hspace | hline
        · rw [mem_spaces hspace]
          rfl
        · exact beq_eq_false_iff_ne.mpr fun h => hlines.1 (h ▸ hline)
      have hbody : blockBody w (line :: lines) ++ rest =
          (spaces w ++ line) ++ '\n' :: (blockBody w lines ++ rest) := by
        simp [blockBody]
      rw [hbody, Text.splitOn_append_sep (by decide), Text.splitOn_of_run hrun, ih hlines.2]
      rfl

theorem length_blockBody (w : Nat) (lines : List (List Char)) :
    (((lines.map (spaces w ++ ·)).map fun line => line.length + 1).foldr (· + ·) 0) =
      (blockBody w lines).length := by
  induction lines with
  | nil => rfl
  | cons line lines ih =>
      simp only [List.map_cons, List.foldr_cons, ih, blockBody, List.flatMap_cons,
        List.length_append, List.length_singleton]

end Lines

/-! ## Widths -/

section Widths

variable {w m : Nat} {indent : Int} {lines : List (List Char)} {line text : List Char}

/-- Empty lines, and then a line that begins with text. -/
def OpensBlock (lines : List (List Char)) : Prop :=
  ∃ n ch tail more, lines = List.replicate n [] ++ (ch :: tail) :: more ∧ ch ≠ ' '

theorem indentation_spaces (w : Nat) : indentation (spaces w) = w := by
  have hall : ∀ ch ∈ spaces w, (ch == ' ') = true := fun ch hch => by simp [mem_spaces hch]
  rw [indentation, List.takeWhile_eq_self_iff.mpr hall]
  exact length_spaces w

theorem indentation_cons {ch : Char} (hch : ch ≠ ' ') (w : Nat) (tail : List Char) :
    indentation (spaces w ++ ch :: tail) = w := by
  rw [indentation, Decimal.takeWhile_of_boundary (fun d hd => by simp [mem_spaces hd])
    fun d hd => by simpa using Option.some.inj hd ▸ hch]
  exact length_spaces w

theorem isSpaceLine_spaces (w : Nat) : isSpaceLine (spaces w) = true :=
  List.all_eq_true.mpr fun ch hch => by simp [mem_spaces hch]

theorem isSpaceLine_cons {ch : Char} (hch : ch ≠ ' ') (w : Nat) (tail : List Char) :
    isSpaceLine (spaces w ++ ch :: tail) = false := by
  simp [isSpaceLine, hch]

theorem foldl_max_replicate (least n : Nat) (h : least ≤ w) :
    (List.replicate (n + 1) w).foldl max least = w := by
  induction n generalizing least with
  | zero => exact max_eq_right h
  | succ n ih =>
      rw [List.replicate_succ, List.foldl_cons]
      exact ih _ (max_le h le_rfl)

/-- The first line with text shows the width. -/
theorem blockWidth_opens (h : OpensBlock lines) {least : Nat} (hleast : least ≤ w)
    (rest : List (List Char)) : blockWidth least (lines.map (spaces w ++ ·) ++ rest) = w := by
  obtain ⟨n, ch, tail, more, rfl, hch⟩ := h
  let behind := more.map (spaces w ++ ·) ++ rest
  have hlines : (List.replicate n [] ++ (ch :: tail) :: more).map (spaces w ++ ·) ++ rest =
      List.replicate n (spaces w) ++ (spaces w ++ ch :: tail) :: behind := by
    simp [behind]
  have hleading : (List.replicate n (spaces w) ++ (spaces w ++ ch :: tail) :: behind).takeWhile
      isSpaceLine = List.replicate n (spaces w) := by
    rw [List.takeWhile_append_of_pos fun line hline => by
      rw [List.eq_of_mem_replicate hline]
      exact isSpaceLine_spaces w]
    rw [List.takeWhile_cons_of_neg (by simp [isSpaceLine_cons hch]), List.append_nil]
  have hindents : (List.replicate n (spaces w) ++ [spaces w ++ ch :: tail]).map indentation =
      List.replicate (n + 1) w := by
    rw [List.map_append, List.map_replicate, List.map_singleton, indentation_spaces,
      indentation_cons hch, List.replicate_succ']
  rw [blockWidth, hlines, hleading]
  simp only [List.drop_left, List.take_succ_cons, List.take_zero, hindents]
  exact foldl_max_replicate least n hleast

theorem isAligned_opens (h : OpensBlock lines) (rest : List (List Char)) :
    isAligned indent w (lines.map (spaces w ++ ·) ++ rest) = true := by
  obtain ⟨n, ch, tail, more, rfl, hch⟩ := h
  have hempty : ∀ line ∈ List.replicate n (spaces w), isEmptyLine w line = true := by
    intro line hline
    rw [List.eq_of_mem_replicate hline]
    simp [isEmptyLine, isSpaceLine_spaces]
  have htext : isEmptyLine w (spaces w ++ ch :: tail) = false := by
    simp [isEmptyLine, isSpaceLine_cons hch]
  rw [isAligned, List.map_append, List.map_replicate, List.map_cons, List.append_nil,
    List.append_assoc, List.dropWhile_append_of_pos hempty, List.cons_append,
    List.dropWhile_cons_of_neg (by simp [htext])]
  simp [indentation_cons hch]

/-- A line with text that is indented less is outside of the block. -/
theorem isInside_shallow {ch : Char} (hch : ch ≠ ' ') (hm : m < w) (tail : List Char) :
    isInside w (spaces m ++ ch :: tail) = false := by
  rw [isInside, isSpaceLine_cons hch, indentation_cons hch]
  simpa using hm

theorem isInside_spaces (w : Nat) (line : List Char) : isInside w (spaces w ++ line) = true := by
  have hfront : ∀ ch ∈ spaces w, (ch == ' ') = true := fun ch hch => by simp [mem_spaces hch]
  rw [isInside, indentation, List.takeWhile_append_of_pos hfront]
  simp

theorem isInside_of_mem {l : List Char} (h : l ∈ lines.map (spaces w ++ ·)) :
    isInside w l = true := by
  obtain ⟨line, -, rfl⟩ := List.mem_map.mp h
  exact isInside_spaces w line

theorem takeWhile_isInside (w : Nat) (lines : List (List Char)) :
    (lines.map (spaces w ++ ·)).takeWhile (isInside w) = lines.map (spaces w ++ ·) :=
  List.takeWhile_eq_self_iff.mpr fun _ => isInside_of_mem

/-- The lines of a block are found in front of a line that is outside. -/
theorem takeWhile_isInside_append (lines : List (List Char)) {q : List Char}
    (hq : isInside w q = false) (rest : List (List Char)) :
    (lines.map (spaces w ++ ·) ++ q :: rest).takeWhile (isInside w) =
      lines.map (spaces w ++ ·) := by
  rw [List.takeWhile_append_of_pos fun _ => isInside_of_mem,
    List.takeWhile_cons_of_neg (by simp [hq]), List.append_nil]

theorem map_drop_spaces (lines : List (List Char)) :
    (lines.map (spaces w ++ ·)).map (·.drop w) = lines := by
  rw [List.map_map]
  refine (List.map_congr_left fun line _ => ?_).trans (List.map_id _)
  exact List.drop_left' (length_spaces w)

/-- Behind the block another line follows. -/
theorem blockLines_below (lines : List (List Char)) {q : List Char} (hq : isInside w q = false)
    (rest : List (List Char)) :
    blockLines w (lines.map (spaces w ++ ·) ++ q :: rest).dropLast
      ((lines.map (spaces w ++ ·) ++ q :: rest).getLast?.getD []) =
        (lines, lines.length, .below) := by
  cases rest with
  | nil =>
      have hempty : isEmptyLine w q = false := by
        rw [isInside, Bool.or_eq_false_iff] at hq
        simp [isEmptyLine, hq.1]
      rw [List.dropLast_concat, List.getLast?_concat, blockLines, takeWhile_isInside,
        map_drop_spaces]
      simp [hempty, hq]
  | cons r rest =>
      have hlast : (lines.map (spaces w ++ ·) ++ q :: r :: rest).dropLast =
          lines.map (spaces w ++ ·) ++ q :: (r :: rest).dropLast := by
        rw [List.dropLast_append_of_ne_nil (List.cons_ne_nil _ _)]
        rfl
      rw [hlast, blockLines, takeWhile_isInside_append lines hq, map_drop_spaces]
      simp

/-- Behind the block the text ends. -/
theorem blockLines_empty (lines : List (List Char)) (hw : 0 < w) :
    blockLines w (lines.map (spaces w ++ ·) ++ [[]]).dropLast
      ((lines.map (spaces w ++ ·) ++ [[]]).getLast?.getD []) =
        (lines, lines.length + 1, .empty) := by
  have hwidth : (0 == w) = false := by simp; omega
  rw [List.dropLast_concat, List.getLast?_concat, blockLines, takeWhile_isInside, map_drop_spaces]
  simp [isEmptyLine, isSpaceLine, hwidth]

end Widths

/-! ## Scalars -/

section Scalars

variable {c : Cursor} {s : Nest} {m n : Nat} {text : List Char} {lines : List (List Char)}

/-- What ends a block does not matter to its text, except for an indented last line. -/
theorem blockText_empty {folded : Bool} {chomping : Chomping} (h : OpensBlock lines) :
    blockText folded chomping .empty lines = blockText folded chomping .below lines := by
  obtain ⟨n, ch, tail, more, rfl, -⟩ := h
  have hempties : (List.replicate n [] ++ (ch :: tail) :: more).takeWhile (·.isEmpty) =
      List.replicate n [] := by
    rw [List.takeWhile_append_of_pos fun line hline => by
      rw [List.eq_of_mem_replicate hline]
      rfl]
    simp
  unfold blockText
  rw [hempties]
  simp [breaksBehindText]

/-- A run without breaks begins the first line. -/
theorem splitOn_run_append {run : List Char} (hrun : ∀ ch ∈ run, (ch == '\n') = false)
    (cs : List Char) :
    ∃ q rest, Text.splitOn (· == '\n') (run ++ cs) = (run ++ q) :: rest := by
  induction run with
  | nil =>
      cases hsplit : Text.splitOn (· == '\n') cs with
      | nil => exact absurd hsplit (Text.splitOn_ne_nil _ _)
      | cons q rest => exact ⟨q, rest, hsplit⟩
  | cons ch run ih =>
      rw [List.forall_mem_cons] at hrun
      obtain ⟨q, rest, hsplit⟩ := ih hrun.2
      refine ⟨q, rest, ?_⟩
      rw [List.cons_append, Text.splitOn, if_neg (by simp [hrun.1]), hsplit]
      rfl

/-- The lines of a block are cut off from the text behind them. -/
def CutOff (w : Nat) (lines : List (List Char)) (behind : List Char) : Prop :=
  let all := lines.map (spaces w ++ ·) ++ Text.splitOn (· == '\n') behind
  ∃ count ending, blockLines w all.dropLast (all.getLast?.getD []) = (lines, count, ending) ∧
    (ending = .below ∨ ending = .empty) ∧
    ∀ c : Cursor, c.rest = blockBody w lines ++ behind → (c.belowLines all count).rest = behind

/-- The text ends, and its last line is empty. -/
theorem cutOff_nil {w : Nat} (hw : 0 < w) (lines : List (List Char)) : CutOff w lines [] := by
  refine ⟨_, _, blockLines_empty lines hw, .inr rfl, fun c hrest => ?_⟩
  have hall : (lines.map (spaces w ++ ·) ++ [[]]).take (lines.length + 1) =
      lines.map (spaces w ++ ·) ++ [[]] := List.take_of_length_le (by simp)
  have hlength : (blockBody w lines).length ≤
      ((lines.map (spaces w ++ ·) ++ [[]]).map fun line : List Char => line.length + 1).foldr
        (· + ·) 0 := by
    rw [← length_blockBody, ← List.sum_eq_foldr, ← List.sum_eq_foldr, List.map_append,
      List.sum_append]
    exact Nat.le_add_right _ _
  change c.rest.drop _ = []
  rw [hrest, List.append_nil, List.drop_eq_nil_iff]
  change _ ≤ (((lines.map (spaces w ++ ·) ++ [[]]).take (lines.length + 1)).map
    fun line : List Char => line.length + 1).foldr (· + ·) 0
  rwa [hall]

/-- A line with text follows that is indented less. -/
theorem cutOff_cons {w : Nat} {ch : Char} (hm : m < w) (hch : ch ≠ ' ') (hbreak : ch ≠ '\n')
    (lines : List (List Char)) (more : List Char) : CutOff w lines (spaces m ++ ch :: more) := by
  have hfront : ∀ d ∈ spaces m ++ [ch], (d == '\n') = false := by
    intro d hd
    rcases List.mem_append.mp hd with hd | hd
    · rw [mem_spaces hd]
      rfl
    · rw [List.mem_singleton.mp hd]
      simpa using hbreak
  obtain ⟨q, rest, hsplit⟩ := splitOn_run_append hfront more
  simp only [List.append_assoc, List.singleton_append] at hsplit
  rw [CutOff, hsplit]
  refine ⟨_, _, blockLines_below lines (isInside_shallow hch hm q) rest, .inl rfl,
    fun c hrest => ?_⟩
  have htake : (lines.map (spaces w ++ ·) ++ (spaces m ++ ch :: q) :: rest).take lines.length =
      lines.map (spaces w ++ ·) := List.take_left' (by simp)
  change c.rest.drop _ = _
  rw [htake, length_blockBody, hrest, List.drop_left]

/-- The lines of a block end in front of a line that is indented less, or with the text. -/
theorem cutOff {w : Nat} (hm : m < w) (htext : Cursor.Begins text) (hend : text = [] → m = 0)
    (lines : List (List Char)) : CutOff w lines (spaces m ++ text) := by
  cases text with
  | nil =>
      obtain rfl := hend rfl
      exact cutOff_nil hm lines
  | cons ch more =>
      obtain ⟨hspace, hbreak, -⟩ := htext ch rfl
      have hch : ch ≠ ' ' := by
        rintro rfl
        exact absurd hspace (by decide)
      exact cutOff_cons hm hch hbreak lines more

/-- The header of a block, and then its lines. -/
theorem run_block (folded : Bool) {signs body : List Char} {chomping : Chomping} {w count : Nat}
    {ending : Ending} (hheader : Header.ofChars? signs = some ⟨chomping, none⟩)
    (hsigns : ∀ ch ∈ signs, isSpace ch = false ∧ ch ≠ '\n')
    (hrest : (c.behind 1).rest = signs ++ '\n' :: body) (htab : body.head? ≠ some '\t') :
    let all := Text.splitOn (· == '\n') body
    blockWidth (c.waiveColumns.indent + 1).toNat all = w →
      isAligned c.waiveColumns.indent w all = true →
      blockLines w all.dropLast (all.getLast?.getD []) = (lines, count, ending) →
      (block folded).run c = some (.scalar .block (blockText folded chomping ending lines),
        (((c.behind 1).waiveColumns.behind signs.length).nextLine).belowLines all count) := by
  intro all hwidth haligned hbodies
  have htake : (signs ++ '\n' :: body).takeWhile (fun ch => !(isSpace ch || ch == '\n')) = signs :=
    Decimal.takeWhile_of_boundary (fun ch hch => by simp [hsigns ch hch]) fun ch hch => by
      obtain rfl := Option.some.inj hch
      decide
  have hwaive : (c.behind 1).waiveColumns.rest = signs ++ '\n' :: body := hrest
  generalize hc₁ : (c.behind 1).waiveColumns = c₁ at hwaive
  have hindent : (c₁.behind signs.length).nextLine.indent = c.waiveColumns.indent := by
    rw [← hc₁]
    rfl
  have hbehind : (c₁.behind signs.length).rest = '\n' :: body := Cursor.rest_behind hwaive
  have hremark : Cursor.remarkLength? (c₁.behind signs.length).rest = some 0 := by
    rw [hbehind]
    rfl
  have hnext : (c₁.behind signs.length).nextLine.rest = body := by
    simp [Cursor.nextLine, hbehind]
  have hfirst : (body.head? != some '\t') = true := by simpa using htab
  rw [block]
  simp only [StateT.run_bind, run_pass, run_modify, StateT.run_get, Option.pure_def,
    Option.bind_eq_bind, Option.bind_some, hc₁, hwaive, htake, hheader, run_passRemark_zero hremark,
    hbehind, opensBreak, beq_self_eq_true, run_guard trivial, List.isEmpty_cons,
    Bool.false_eq_true, if_false, hnext, hindent, hfirst, all, hwidth, haligned, hbodies]
  rfl

/-- A block whose lines are indented is read, up to the line that is not in it. -/
theorem run_block_lines (folded : Bool) {mark : Char} {signs : List Char} {chomping : Chomping}
    (hheader : Header.ofChars? signs = some ⟨chomping, none⟩)
    (hsigns : ∀ ch ∈ signs, isSpace ch = false ∧ ch ≠ '\n') (hlines : ∀ line ∈ lines, '\n' ∉ line)
    (hopens : OpensBlock lines) (hindent : c.waiveColumns.indent = n)
    (hrest : c.rest = mark :: signs ++ '\n' :: (blockBody (n + 2) lines ++ (spaces m ++ text)))
    (hcut : CutOff (n + 2) lines (spaces m ++ text)) :
    ∃ index line, (block folded).run c =
      some (.scalar .block (blockText folded chomping .below lines),
        c.waiveColumns.movedTo (spaces m ++ text) index line 0 true) := by
  let body := blockBody (n + 2) lines ++ (spaces m ++ text)
  obtain ⟨count, ending, hbodies, hending, hbelow⟩ := hcut
  have hsplit : Text.splitOn (· == '\n') body =
      lines.map (spaces (n + 2) ++ ·) ++ Text.splitOn (· == '\n') (spaces m ++ text) :=
    splitOn_blockBody hlines _
  rw [← hsplit] at hbodies hbelow
  have hheaderrest : (c.behind 1).rest = signs ++ '\n' :: body := by
    simp [Cursor.behind, hrest, body]
  have htab : body.head? ≠ some '\t' := by
    obtain ⟨k, ch, tail, more, rfl, -⟩ := hopens
    cases k <;> simp [body, blockBody, spaces, List.replicate_succ]
  -- the block is one column deeper than the least that the key demands
  have hwidth : blockWidth (c.waiveColumns.indent + 1).toNat (Text.splitOn (· == '\n') body) =
      n + 2 := by
    rw [hsplit]
    exact blockWidth_opens hopens (by omega) _
  have haligned : isAligned c.waiveColumns.indent (n + 2) (Text.splitOn (· == '\n') body) =
      true := by
    rw [hsplit]
    exact isAligned_opens hopens _
  have hheard : blockText folded chomping ending lines =
      blockText folded chomping .below lines := by
    rcases hending with rfl | rfl
    · rfl
    · exact blockText_empty hopens
  have hrun := run_block folded hheader hsigns hheaderrest htab hwidth haligned hbodies
  rw [hheard] at hrun
  let c₁ := (((c.behind 1).waiveColumns.behind signs.length).nextLine).belowLines
    (Text.splitOn (· == '\n') body) count
  have hbehind : c₁.rest = spaces m ++ text := by
    refine hbelow _ ?_
    have hsecond := Cursor.rest_behind (c := (c.behind 1).waiveColumns) hheaderrest
    simp [Cursor.nextLine, hsecond, body]
  refine ⟨c₁.index, c₁.line, ?_⟩
  rw [hrun, ← hbehind]
  rfl

/-- **The lines of a block value are put together.** -/
theorem content_block {folded : Bool} {mark : Char} {signs : List Char} {chomping : Chomping}
    (hheader : Header.ofChars? signs = some ⟨chomping, none⟩)
    (hsigns : ∀ ch ∈ signs, isSpace ch = false ∧ ch ≠ '\n') (hlines : ∀ line ∈ lines, '\n' ∉ line)
    (hopens : OpensBlock lines) (hn : s.indent = n)
    (hc : c.Behind (mark :: signs ++ '\n' :: (blockBody (n + 2) lines ++ (spaces m ++ text))) s)
    (htext : Cursor.Begins text) (hm : m ≤ n) (hend : text = [] → m = 0) :
    ∃ c₁, (keyed true (block folded)).run c = some ((), c₁) ∧ c₁.rest = spaces m ++ text ∧
      c₁.Arrives m text (s.add [.scalar .block (blockText folded chomping .below lines)]) := by
  have hwaive : (c.allowKey true).waiveColumns.nest = s :=
    Cursor.nest_waiveColumns hc.nest hc.settled
  have hindent : (c.allowKey true).waiveColumns.indent = n :=
    (congrArg Nest.indent hwaive).trans hn
  obtain ⟨index, line, hrun⟩ := run_block_lines folded hheader hsigns hlines hopens
    hindent hc.rest (cutOff (by omega) htext hend lines)
  let t : Token := .scalar .block (blockText folded chomping .below lines)
  let c₁ := (c.allowKey true).waiveColumns.movedTo (spaces m ++ text) index line 0 true
  have hcalm : (c₁.push t).Calm :=
    (((hc.calm.allowKey true).waiveColumns).movedTo _ _ _ _ _).push t
  have hnest : (c₁.push t).nest = s.add [t] := congrArg (Nest.add [t]) hwaive
  refine ⟨c₁.push t, hc.run_keyed hrun, rfl, ?_⟩
  exact Cursor.arrives_line hcalm rfl rfl rfl htext (by rw [hnest])

end Scalars

end Reckoner.Yaml
