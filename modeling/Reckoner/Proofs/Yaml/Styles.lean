import Reckoner.Proofs.Yaml.Fold
import Reckoner.Proofs.Yaml.Quoted

/-!
# `Reckoner.Proofs.Yaml.Styles` — what is heard of a text

Each style is read back in its own way. Quotes and literal blocks keep every character. A plain text
loses the spaces at its end, and a folded one the blanks where it was broken.

## Contents
- **Plain texts.** What `isPlain` rules out.
- **Literal blocks.** `blockText_literal`.
- **Hearing.** `heardOf`, and `Survives` for the texts that are heard as they are.
-/

namespace Reckoner.Yaml

/-! ## Plain texts -/

section Plain

variable {cs : List Char}

theorem hasKeyMark_cons {c : Char} (h : hasKeyMark (c :: cs) = false) :
    hasKeyMark cs = false ∧ (c = ':' → cs.head? ≠ some ' ') := by
  unfold hasKeyMark at h
  split at h
  · exact absurd h nofun
  · rename_i hmark heq
    obtain ⟨rfl, rfl⟩ := List.cons.inj heq
    refine ⟨h, ?_⟩
    rintro rfl hspace
    cases cs with
    | nil => exact absurd hspace nofun
    | cons d ds => exact hmark ds rfl (by rw [Option.some.inj hspace])
  · rename_i heq
    exact absurd heq nofun

theorem ne_of_not_control {c : Char} (h : isControl c = false) :
    c ≠ '\n' ∧ c ≠ '\t' ∧ c ≠ '\r' ∧ c ≠ '\x00' := by
  refine ⟨?_, ?_, ?_, ?_⟩ <;> rintro rfl <;> exact absurd h (by decide)

/-- The characters of a line, and what stands behind its colons. -/
theorem isPlainLine_of (hcontrol : ∀ c ∈ cs, isControl c = false) (hcomment : '#' ∉ cs)
    (hmark : hasKeyMark cs = false) (hlast : cs.getLast? ≠ some ':') : IsPlainLine cs := by
  induction cs with
  | nil => trivial
  | cons c cs ih =>
      rw [List.forall_mem_cons] at hcontrol
      obtain ⟨hmark, hcolon⟩ := hasKeyMark_cons hmark
      obtain ⟨hbreak, htab, -, -⟩ := ne_of_not_control hcontrol.1
      refine ⟨hbreak, htab, fun h => hcomment (h ▸ List.mem_cons_self), ?_, ?_⟩
      · rintro rfl
        cases cs with
        | nil => exact absurd rfl hlast
        | cons d ds =>
            obtain ⟨hbreak, htab, -, -⟩ := ne_of_not_control (hcontrol.2 d List.mem_cons_self)
            have hspace : d ≠ ' ' := fun h => hcolon rfl (by rw [h]; rfl)
            simp [opensBlank, isSpace, hspace, htab, hbreak]
      · refine ih hcontrol.2 (fun h => hcomment (List.mem_cons_of_mem _ h)) hmark ?_
        cases cs with
        | nil => exact nofun
        | cons d ds => exact hlast

/-- A text that ends in a colon does so without the blanks around it. -/
theorem getLast?_trimChars (h : cs.getLast? = some ':') :
    (Text.trimChars cs).getLast? = some ':' := by
  obtain ⟨front, back, hcs, hfront, hback⟩ := Text.exists_blanks cs
  have hblank : Text.isBlank ':' = false := by decide
  rw [hcs] at h
  cases hend : back.getLast? with
  | some c =>
      rw [List.getLast?_append, hend, Option.some_or] at h
      obtain rfl := Option.some.inj h
      exact absurd (hback _ (List.mem_of_getLast? hend)) (by simp [hblank])
  | none =>
      rw [List.getLast?_eq_none_iff.mp hend, List.append_nil, List.getLast?_append] at h
      cases hend : (Text.trimChars cs).getLast? with
      | some c => rwa [hend] at h
      | none =>
          rw [hend, Option.none_or] at h
          exact absurd (hfront _ (List.mem_of_getLast? h)) (by simp [hblank])

/-- What a plain text is like. -/
structure IsBare (cs : List Char) : Prop where
  ne_nil : cs ≠ []
  line : IsPlainLine cs
  control : ∀ c ∈ cs, isControl c = false
  opener : ∀ c ∈ cs.head?, isOpener c = false ∧ isReserved c = false

theorem isBare_of_isPlain (h : isPlain cs = true) : IsBare cs := by
  unfold isPlain at h
  split at h
  · exact absurd h Bool.false_ne_true
  · rename_i c tail
    simp only [Bool.and_eq_true, Bool.not_eq_true', bne_iff_ne, List.any_eq_false,
      Bool.not_eq_true] at h
    obtain ⟨⟨⟨⟨⟨-, hopener⟩, hmark⟩, hlast⟩, hreserved⟩, hcontrol⟩ := h
    have hcomment : '#' ∉ c :: tail := fun hmem => absurd (hreserved _ hmem) (by decide)
    refine ⟨List.cons_ne_nil _ _, isPlainLine_of hcontrol hcomment hmark fun h => ?_, hcontrol, ?_⟩
    · exact hlast (getLast?_trimChars h)
    · intro d hd
      obtain rfl := Option.some.inj hd
      exact ⟨hopener, hreserved _ List.mem_cons_self⟩

theorem ne_space_of_not_opener {c : Char} (h : isOpener c = false) : isSpace c = false := by
  rw [isSpace, Bool.or_eq_false_iff, beq_eq_false_iff_ne, beq_eq_false_iff_ne]
  constructor <;> rintro rfl <;> exact absurd h (by decide)

theorem IsBare.head_ne_space (h : IsBare cs) : ∀ c ∈ cs.head?, isSpace c = false :=
  fun c hc => ne_space_of_not_opener (h.opener c hc).1

/-- What begins a plain text is no mark. -/
theorem content_of_not_opener {ch : Char} (hopener : isOpener ch = false)
    (hreserved : isReserved ch = false) (c : Cursor) : content ch c = keyed false plain := by
  unfold content
  dsimp only
  split
  all_goals first | rfl | exact absurd hopener (by decide) | exact absurd hreserved (by decide)

end Plain

/-! ## Literal blocks -/

section Literal

variable {cs body previous line : List Char} {more : List (List Char)}

/-- The lines of a text, put together again. -/
theorem exists_splitOn (body : List Char) :
    ∃ line more, Text.splitOn (· == '\n') body = line :: more ∧
      body = line ++ more.flatMap ('\n' :: ·) := by
  induction body with
  | nil => exact ⟨[], [], rfl, rfl⟩
  | cons c body ih =>
      obtain ⟨line, more, hsplit, hbody⟩ := ih
      by_cases hc : c = '\n'
      · subst hc
        refine ⟨[], line :: more, ?_, ?_⟩
        · rw [Text.splitOn_cons_sep rfl, hsplit]
        · rw [hbody]
          rfl
      · refine ⟨c :: line, more, ?_, ?_⟩
        · rw [Text.splitOn, if_neg (by simpa using hc), hsplit]
        · rw [hbody]
          rfl

/-- The last line has text if the text does not end in a line feed. -/
theorem getLast?_splitOn (hne : body ≠ []) (h : body.getLast? ≠ some '\n') :
    (Text.splitOn (· == '\n') body).getLast? ≠ some [] := by
  induction body with
  | nil => exact absurd rfl hne
  | cons c body ih =>
      cases body with
      | nil =>
          have hc : c ≠ '\n' := fun hc => h (hc ▸ rfl)
          simp [Text.splitOn, hc]
      | cons d ds =>
          have hrest := ih (List.cons_ne_nil _ _) h
          obtain ⟨line, more, hsplit, -⟩ := exists_splitOn (d :: ds)
          rw [hsplit] at hrest
          by_cases hc : c = '\n'
          · subst hc
            rw [Text.splitOn_cons_sep rfl, hsplit]
            exact hrest
          · rw [Text.splitOn, if_neg (by simpa using hc), hsplit]
            cases more with
            | nil => exact fun hnil => absurd (Option.some.inj hnil) (List.cons_ne_nil _ _)
            | cons next more => exact hrest

/-- Literal lines are joined by line feeds. -/
theorem joinLines_literal (empties : Nat) (hlast : more.getLast? ≠ some [])
    (hmore : more = [] → empties = 0) :
    joinLines false previous empties more =
      List.replicate empties '\n' ++ more.flatMap ('\n' :: ·) := by
  induction more generalizing previous empties with
  | nil =>
      rw [hmore rfl]
      rfl
  | cons line more ih =>
      have hrest : more.getLast? ≠ some [] := by
        cases more with
        | nil => exact nofun
        | cons next more => exact hlast
      cases line with
      | nil =>
          have hne : more ≠ [] := fun h => hlast (by rw [h]; rfl)
          rw [joinLines, if_pos List.isEmpty_nil, ih (empties + 1) hrest fun h => absurd h hne]
          simp [List.replicate_succ', List.append_assoc]
      | cons c line =>
          rw [joinLines, if_neg (by simp), ih 0 hrest fun _ => rfl]
          simp [List.replicate_succ', List.append_assoc]

/-- A text is its body and line feeds behind it. -/
theorem exists_body (cs : List Char) :
    ∃ n, cs = Yaml.body cs ++ List.replicate n '\n' ∧ (Yaml.body cs).getLast? ≠ some '\n' := by
  refine ⟨(cs.reverse.takeWhile (· == '\n')).length, ?_, ?_⟩
  · have hfeeds : cs.reverse.takeWhile (· == '\n') =
        List.replicate (cs.reverse.takeWhile (· == '\n')).length '\n' :=
      List.eq_replicate_of_mem fun c hc => by simpa using List.mem_takeWhile_imp hc
    rw [Yaml.body, ← List.reverse_inj, List.reverse_append, List.reverse_reverse,
      List.reverse_replicate, ← hfeeds, List.takeWhile_append_dropWhile]
  · rw [Yaml.body, List.getLast?_reverse]
    intro hlast
    have hfirst := List.head?_dropWhile_not (· == '\n') cs.reverse
    rw [hlast] at hfirst
    exact absurd hfirst (by decide)

/-- The line breaks that end a literal block of so many line feeds. -/
def chompingOf (feeds : Nat) : Chomping :=
  match feeds with
  | 0 => .strip
  | 1 => .clip
  | _ => .keep

theorem breaksBehindText_chompingOf (n : Nat) :
    breaksBehindText (chompingOf n) .below (n - 1) = n := by
  rcases n with _ | _ | n
  · rfl
  · rfl
  · change 1 + (n + 1) = n + 2
    omega

/-- **Literal blocks.** The lines of a literal block are heard as they are. -/
theorem blockText_literal (hne : line ≠ []) (hlast : (line :: more).getLast? ≠ some []) (n : Nat) :
    blockText false (chompingOf n) .below (line :: more ++ List.replicate (n - 1) []) =
      line ++ more.flatMap ('\n' :: ·) ++ List.replicate n '\n' := by
  have hempties : (line :: more ++ List.replicate (n - 1) []).takeWhile List.isEmpty = [] :=
    List.takeWhile_cons_of_neg (by simpa using hne)
  have htrailing : ((line :: more ++ List.replicate (n - 1) []).reverse.takeWhile
      List.isEmpty).length = n - 1 := by
    have hempty : ∀ l ∈ List.replicate (n - 1) ([] : List Char), l.isEmpty = true := fun l hl => by
      rw [List.eq_of_mem_replicate hl]
      rfl
    rw [List.reverse_append, List.reverse_replicate, List.takeWhile_append_of_pos hempty]
    cases hreverse : (line :: more).reverse with
    | nil => simp
    | cons last others =>
        have htext : last ≠ [] := by
          rintro rfl
          rw [← List.head?_reverse, hreverse] at hlast
          exact hlast rfl
        rw [List.takeWhile_cons_of_neg (by simpa using htext)]
        simp
  have hjoin : joinLines false line 0 more = more.flatMap ('\n' :: ·) := by
    refine joinLines_literal 0 ?_ fun _ => rfl
    cases more with
    | nil => exact nofun
    | cons next more => exact hlast
  rw [blockText, show (fun l : List Char => l.isEmpty) = List.isEmpty from rfl, hempties, htrailing]
  simp only [List.length_nil, List.drop_zero, List.cons_append, joinLines_append_empties, hjoin,
    breaksBehindText_chompingOf, List.replicate_zero, List.nil_append]

end Literal

/-! ## Hearing -/

section Hearing

variable {cs : List Char}

/-- What is heard of a text. -/
def heardOf (cs : List Char) : List Char :=
  match Style.of cs with
  | .plain => heard cs
  | .folded => blockText true .strip .below (foldLines cs)
  | _ => cs

/-- How a text that is heard was spelled. -/
def spellingOf (cs : List Char) : Spelling :=
  match Style.of cs with
  | .plain => .plain
  | .single | .double => .quoted
  | .literal | .folded => .block

/-- A style keeps a text: it is heard as it is. A plain text loses spaces at its end, and a folded
    one is broken at blanks, which should be spaces in front of further text. -/
def Style.Keeps (cs : List Char) : Style → Prop
  | .plain => cs.getLast? ≠ some ' '
  | .folded => [' '].intercalate (foldLines cs) = cs ∧ (foldLines cs).getLast? ≠ some []
  | _ => True

/-- A text that its style keeps. -/
def Survives (cs : List Char) : Prop := (Style.of cs).Keeps cs

instance (style : Style) : Decidable (style.Keeps cs) :=
  match style with
  | .plain => inferInstanceAs (Decidable (_ ≠ _))
  | .folded => inferInstanceAs (Decidable (_ ∧ _))
  | .single | .double | .literal => inferInstanceAs (Decidable True)

instance : DecidablePred Survives := fun cs => inferInstanceAs (Decidable ((Style.of cs).Keeps cs))

theorem isPlain_of_plain (h : Style.of cs = .plain) : isPlain cs = true := by
  unfold Style.of at h
  dsimp only at h
  split at h
  · exact absurd h nofun
  · split at h
    · exact absurd h nofun
    · split at h
      · exact absurd h nofun
      · split at h
        · assumption
        · exact absurd h nofun

theorem mem_of_single (h : Style.of cs = .single) : cs = ['.'] ∨ cs = ['#'] ∨ cs = ['-'] := by
  unfold Style.of at h
  dsimp only at h
  split at h
  · exact absurd h nofun
  · split at h
    · exact absurd h nofun
    · split at h
      · rename_i hmark
        simpa [or_assoc] using hmark
      · split at h
        · exact absurd h nofun
        · exact absurd h nofun

theorem isPlain_of_folded (h : Style.of cs = .folded) :
    isPlain cs = true ∧ lineWidth < (String.ofList cs).utf8ByteSize := by
  unfold Style.of at h
  dsimp only at h
  split at h
  · exact absurd h nofun
  · split at h
    · rename_i hlong
      rwa [Bool.and_eq_true, decide_eq_true_eq] at hlong
    · split at h
      · exact absurd h nofun
      · split at h
        · exact absurd h nofun
        · exact absurd h nofun

/-- A line too wide has more than one character. -/
theorem two_le_length_of_wide (h : lineWidth < (String.ofList cs).utf8ByteSize) :
    2 ≤ cs.length := by
  rcases cs with _ | ⟨c, _ | ⟨d, tail⟩⟩
  · exact absurd h (by decide)
  · have hsize : (String.ofList [c]).utf8ByteSize = c.utf8Size := by simp
    have hlimit : lineWidth = 80 := rfl
    have hmost := c.utf8Size_le_four
    omega
  · simp

theorem isPlain_of_literal (h : Style.of cs = .literal) :
    '\n' ∈ cs ∧ isPlain ((Yaml.body cs).map fun c => if c == '\n' then ' ' else c) = true := by
  unfold Style.of at h
  dsimp only at h
  split at h
  · rename_i hlines
    rw [Bool.and_eq_true] at hlines
    exact ⟨by simpa using hlines.1, hlines.2⟩
  · split at h
    · exact absurd h nofun
    · split at h
      · exact absurd h nofun
      · split at h
        · exact absurd h nofun
        · exact absurd h nofun

/-- A short text survives unless it ends with a space. -/
theorem survives_of_short (hsize : (String.ofList cs).utf8ByteSize ≤ lineWidth)
    (hlast : cs.getLast? ≠ some ' ') : Survives cs := by
  unfold Survives
  cases hstyle : Style.of cs with
  | plain => exact hlast
  | folded => exact absurd hsize (Nat.not_le_of_lt (isPlain_of_folded hstyle).2)
  | single => trivial
  | double => trivial
  | literal => trivial

/-- **Hearing.** A text is heard as it is exactly if it survives. -/
theorem heardOf_eq_iff : heardOf cs = cs ↔ Survives cs := by
  unfold heardOf Survives
  split
  · rename_i hstyle
    have hne := (isBare_of_isPlain (isPlain_of_plain hstyle)).ne_nil
    rw [hstyle, heard, List.rdropWhile_eq_self_iff, Style.Keeps, List.getLast?_eq_some_getLast hne]
    simp [hne]
  · rename_i hstyle
    rw [hstyle]
    obtain ⟨hplain, -⟩ := isPlain_of_folded hstyle
    have hbare := isBare_of_isPlain hplain
    refine blockText_folded (foldLines_breaks cs) hbare.ne_nil hbare.head_ne_space fun hmem => ?_
    exact (ne_of_not_control (hbare.control _ hmem)).1 rfl
  · rename_i hplain hfolded
    refine iff_of_true rfl ?_
    cases hstyle : Style.of cs with
    | plain => exact absurd hstyle hplain
    | folded => exact absurd hstyle hfolded
    | single => trivial
    | double => trivial
    | literal => trivial

end Hearing

end Reckoner.Yaml
