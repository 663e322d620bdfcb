import Reckoner.Proofs.Yaml.Nodes

/-!
# `Reckoner.Proofs.Yaml.Read` — a written text is read as its node

A reader drops what stands behind a null character, and turns carriage returns into line feeds. No
text that is written has either.

## Contents
- **Characters.** `isKept`, and that all characters of a written value are.
- **Documents.** `read?_write`.
-/

namespace Reckoner.Yaml

/-! ## Characters -/

/-- A character that a reader takes as it is. -/
def isKept (ch : Char) : Bool := ch != '\x00' && ch != '\r'

/-- A text of such characters. -/
def IsKept (cs : List Char) : Prop := ∀ ch ∈ cs, isKept ch = true

section Characters

variable {cs ds : List Char} {n : Nat}

theorem IsKept.nil : IsKept [] := nofun

theorem IsKept.append (hcs : IsKept cs) (hds : IsKept ds) : IsKept (cs ++ ds) := fun ch hch =>
  (List.mem_append.mp hch).elim (hcs ch) (hds ch)

theorem IsKept.cons {ch : Char} (hch : isKept ch = true) (hcs : IsKept cs) : IsKept (ch :: cs) :=
  List.forall_mem_cons.mpr ⟨hch, hcs⟩

theorem IsKept.of_all (h : cs.all isKept = true) : IsKept cs := List.all_eq_true.mp h

theorem isKept_spaces (n : Nat) : IsKept (spaces n) := fun ch hch => by
  rw [List.eq_of_mem_replicate hch]
  rfl

theorem isKept_of_not_control {ch : Char} (h : isControl ch = false) : isKept ch = true := by
  obtain ⟨-, -, hreturn, hnull⟩ := ne_of_not_control h
  simp [isKept, hreturn, hnull]

theorem isKept_plain (h : isPlain cs = true) : IsKept cs := fun ch hch =>
  isKept_of_not_control ((isBare_of_isPlain h).control ch hch)

theorem isKept_hexDigit : ∀ n < 16, isKept (hexDigit n) = true := by decide

theorem isKept_escape (ch : Char) : IsKept (escape ch) := by
  unfold escape
  split
  case h_16 hnull _ _ _ _ _ _ hreturn _ _ _ _ _ =>
    split
    · rename_i hcontrol
      have hless : ch.toNat < 160 := by
        simp only [isControl, Bool.or_eq_true, Bool.and_eq_true, decide_eq_true_eq] at hcontrol
        omega
      exact .cons rfl (.cons rfl (.cons (isKept_hexDigit _ (by omega))
        (.cons (isKept_hexDigit _ (by omega)) .nil)))
    · rename_i hcontrol
      exact .cons (isKept_of_not_control (by simpa using hcontrol)) .nil
  all_goals exact .of_all (by decide)

theorem isKept_indentedLines {lines : List (List Char)} (h : ∀ line ∈ lines, IsKept line) :
    IsKept (indentedLines n lines) := by
  intro ch hch
  obtain ⟨line, hline, hch⟩ := List.mem_flatMap.mp hch
  exact (IsKept.cons rfl ((isKept_spaces n).append (h line hline))) ch hch

theorem isKept_textChars (n : Nat) (text : String) : IsKept (textChars n text) := by
  unfold textChars
  dsimp only
  cases hstyle : Style.of text.toList with
  | plain => exact isKept_plain (isPlain_of_plain hstyle)
  | single =>
      refine .cons rfl (.append ?_ (.of_all rfl))
      rcases mem_of_single hstyle with h | h | h <;> rw [h] <;> exact .of_all (by decide)
  | double =>
      refine .cons rfl (.append ?_ (.of_all rfl))
      intro ch hch
      obtain ⟨d, -, hch⟩ := List.mem_flatMap.mp hch
      exact isKept_escape d ch hch
  | literal =>
      have hplain := isKept_plain (isPlain_of_literal hstyle).2
      refine .append ?_ (isKept_indentedLines fun line hline ch hch => ?_)
      · split
        · exact .of_all (by decide)
        · exact .of_all (by decide)
        · exact .of_all (by decide)
      · rcases List.mem_append.mp hline with hline | hline
        · obtain ⟨hbody, hbreak⟩ := Text.mem_of_mem_splitOn hline ch hch
          exact hplain ch (List.mem_map.mpr ⟨ch, hbody, by rw [hbreak]; rfl⟩)
        · rw [List.eq_of_mem_replicate hline] at hch
          exact absurd hch List.not_mem_nil
  | folded =>
      refine .append (.of_all (by decide)) (isKept_indentedLines fun line hline ch hch => ?_)
      exact isKept_plain (isPlain_of_folded hstyle).1 ch
        ((foldLines_breaks _).subset line hline ch hch)

/-- The characters of numerals. -/
theorem isKept_numeral (h : IsNumeral cs) : IsKept cs := fun ch hch => by
  rcases h.chars ch hch with hdigit | hmark
  · have hreturn : ch ≠ '\r' := ne_of_isDigit hdigit (by decide)
    have hnull : ch ≠ '\x00' := ne_of_isDigit hdigit (by decide)
    simp [isKept, hreturn, hnull]
  · have hmarks : IsKept ['.', 'e', '+', '-'] := .of_all (by decide)
    exact hmarks ch hmark

mutual

theorem isKept_valueChars : ∀ v : Json, isRegular v = true → ∀ n : Nat, IsKept (valueChars n v)
  | .string text, _, n => .cons rfl (.append (isKept_textChars n text) (.of_all rfl))
  | .whole k, _, _ => .cons rfl (.append (isKept_numeral (isNumeral_whole k)) (.of_all rfl))
  | .number _, h, _ => .cons rfl (.append (isKept_numeral (isNumeral_number h)) (.of_all rfl))
  | .array [], _, _ => .of_all rfl
  | .array (v :: vs), h, n => by
      rw [isRegular] at h
      exact .cons rfl (isKept_itemsChars (v :: vs) h (n + 2))
  | .object (m :: ms), h, n => by
      rw [isRegular] at h
      exact .cons rfl (isKept_membersChars (m :: ms) h (n + 2))
  | .object [], h, _ => absurd h nofun
  | .null, h, _ => absurd h nofun
  | .bool _, h, _ => absurd h nofun

theorem isKept_membersChars : ∀ ms : List (String × Json), areRegular ms = true → ∀ n : Nat,
    IsKept (membersChars n ms)
  | [], _, _ => .nil
  | (name, value) :: ms, h, n => by
      rw [areRegular, Bool.and_eq_true, Bool.and_eq_true] at h
      exact .append (.append (.append (isKept_spaces n) (isKept_textChars n name))
        (.cons rfl (isKept_valueChars value h.1.2 n))) (isKept_membersChars ms h.2 n)

theorem isKept_itemsChars : ∀ vs : List Json, areRecords vs = true → ∀ n : Nat,
    IsKept (itemsChars n vs)
  | [], _, _ => .nil
  | .object ((name, value) :: ms) :: vs, h, n => by
      rw [areRecords, areRegular, Bool.and_eq_true, Bool.and_eq_true, Bool.and_eq_true] at h
      obtain ⟨⟨⟨hname, hvalue⟩, hms⟩, hvs⟩ := h
      rw [itemsChars_record hname, entryChars, ← textChars_name hname (n + 2)]
      exact (isKept_spaces n).append (.cons rfl (.cons rfl (.append
        ((isKept_textChars (n + 2) name).append
          (.cons rfl ((isKept_valueChars value hvalue (n + 2)).append
            (isKept_membersChars ms hms (n + 2))))) (isKept_itemsChars vs hvs n))))
  | .object [] :: _, h, _ => absurd h nofun
  | .null :: _, h, _ => absurd h nofun
  | .bool _ :: _, h, _ => absurd h nofun
  | .whole _ :: _, h, _ => absurd h nofun
  | .number _ :: _, h, _ => absurd h nofun
  | .string _ :: _, h, _ => absurd h nofun
  | .array _ :: _, h, _ => absurd h nofun

end

end Characters

/-! ## Documents -/

theorem normalBreaks_kept {cs : List Char} (h : IsKept cs) : normalBreaks cs = cs := by
  induction cs with
  | nil => rfl
  | cons ch cs ih =>
      have hreturn : ch ≠ '\r' := by
        rintro rfl
        exact absurd (h _ List.mem_cons_self) (by decide)
      rw [normalBreaks, ih fun d hd => h d (List.mem_cons_of_mem _ hd)]
      · rintro _ rfl -
        exact hreturn rfl
      · exact hreturn

theorem contentChars_kept {text : String} (h : IsKept text.toList)
    (hmark : text.toList.head? ≠ some '\ufeff') : contentChars text = text.toList := by
  have hnull : text.toList.takeWhile (· != '\x00') = text.toList := by
    rw [List.takeWhile_eq_self_iff]
    intro ch hch
    exact (Bool.and_eq_true_iff.mp (h ch hch)).1
  unfold contentChars
  dsimp only
  rw [if_neg (by simpa using hmark), hnull, normalBreaks_kept h]

/-- **Documents.** A written object is read back as its node. -/
theorem read?_write {ms : List (String × Json)} (hne : ms ≠ []) (h : Fits depthLimit (.object ms)) :
    Node.read? (write (.object ms)) = some (.ofJson (.object ms)) := by
  obtain ⟨⟨name, value⟩, more, rfl⟩ := List.exists_cons_of_ne_nil hne
  have hregular := h.regular
  rw [isRegular] at hregular
  have hname : isName name = true := (areRegular_iff.mp hregular _ List.mem_cons_self).1
  have htext : (write (.object ((name, value) :: more))).toList =
      membersChars 0 ((name, value) :: more) := by
    rw [write, String.toList_ofList]
  have hkept : IsKept (write (.object ((name, value) :: more))).toList := by
    rw [htext]
    exact isKept_membersChars _ hregular 0
  have hmark : (write (.object ((name, value) :: more))).toList.head? ≠ some '\ufeff' := by
    obtain ⟨-, ⟨ch, tail, hcs⟩, halpha, -⟩ := isName_eq_true hname
    rw [htext, membersChars_cons hname, entryChars, hcs]
    intro hhead
    exact ne_of_isAlpha (halpha ch (by simp [hcs])) (by decide) (Option.some.inj hhead)
  rw [Node.read?, contentChars_kept hkept hmark, ofChars_write hregular, ofTokens?_object h]

end Reckoner.Yaml
