import Reckoner.Proofs.Decimal.Literals
import Reckoner.Proofs.Formula.Patterns

/-!
# `Reckoner.Proofs.Formula.Scan` — a source is cut into lexemes

Scanning is a relation: it skips what stands between lexemes, takes the longest lexeme, and stops
anywhere. `tokenize` follows it to the end of the source, or to the first character where it cannot
go on. Positions are the numbers of characters in front, so they need no account of their own.

## Contents
- **The judgement.** `Scan` between a part that is scanned and a part that is left.
- **Runs.** `Scan.tokensFrom_eq`: a scan tells what is left to be done; `exists_scan`: scanning ends
  at the end or where it is `Stuck`.
- **Positions.** `Scan.increasing`.
- **Spaced words.** `Spaced`: words with gaps between them are scanned one by one.
- **Numbers.** `Spells.reads_number`: a number's word writes a number, and is read as it.
- **All together.** `tokenize_exact`.
-/

namespace Reckoner.Formula

/-! ## The judgement -/

/-- **Scanning** from one cut of a source to another. Skipped characters are passed over one by one;
    the lexeme at the front is taken as a whole, and placed behind the characters before it. -/
inductive Scan : List Char × List Char → List Placed → List Char × List Char → Prop
  | stop (cut : List Char × List Char) : Scan cut [] cut
  | skip {before rest : List Char} {c : Char} {tokens : List Placed} {cut : List Char × List Char}
      (skipped : isSkipped c = true) (more : Scan (before ++ [c], rest) tokens cut) :
      Scan (before, c :: rest) tokens cut
  | lexeme {before w rest : List Char} {t : Token} {tokens : List Placed}
      {cut : List Char × List Char} (longest : IsLexeme (w ++ rest) w t)
      (more : Scan (before ++ w, rest) tokens cut) :
      Scan (before, w ++ rest) (⟨t, before.length + 1⟩ :: tokens) cut

/-- Neither a gap nor a lexeme stands at the front. -/
structure Stuck (c : Char) (rest : List Char) : Prop where
  notSkipped : isSkipped c = false
  noLexeme : ∀ w t, Spells w t → ¬ w <+: c :: rest

variable {before rest w cs : List Char} {c : Char} {t : Token} {tokens : List Placed}
  {cut cut' : List Char × List Char}

/-- Scanning moves the cut and keeps the source. -/
theorem Scan.source_eq (h : Scan cut tokens cut') : cut'.1 ++ cut'.2 = cut.1 ++ cut.2 := by
  induction h with
  | stop => rfl
  | skip _ _ ih => rw [ih, List.append_assoc, List.singleton_append]
  | lexeme _ _ ih => rw [ih, List.append_assoc]

/-! ## Runs -/

theorem tokensFrom_nil (position : Nat) : tokensFrom position [] = .ok [] := by
  rw [tokensFrom]

theorem tokensFrom_skip (hc : isSkipped c = true) (position : Nat) :
    tokensFrom position (c :: rest) = tokensFrom (position + 1) rest := by
  rw [tokensFrom, if_pos hc]

theorem tokensFrom_lexeme (h : IsLexeme (w ++ rest) w t) (position : Nat) :
    tokensFrom position (w ++ rest) =
      (tokensFrom (position + w.length) rest).map (⟨t, position⟩ :: ·) := by
  have hread := lexeme?_eq_some_iff.mpr h
  obtain ⟨c, cs, rfl⟩ := List.exists_cons_of_ne_nil h.spells.ne_nil
  have hc := h.spells.notSkipped c List.mem_cons_self
  rw [List.cons_append] at hread ⊢
  rw [tokensFrom, if_neg (by simp [hc])]
  split
  · rename_i hfound
    rw [hread] at hfound
    cases hfound
  · rename_i text token hfound
    obtain ⟨rfl, rfl⟩ := Prod.mk.inj (Option.some.inj (hfound.symm.trans hread))
    rw [← List.cons_append, List.drop_left]
    cases tokensFrom (position + (c :: cs).length) rest <;> rfl

theorem tokensFrom_stuck (h : Stuck c rest) (position : Nat) :
    tokensFrom position (c :: rest) =
      .error (.unexpectedCharacter (String.singleton c) position) := by
  have hread := lexeme?_eq_none_iff.mpr h.noLexeme
  rw [tokensFrom, if_neg (by simp [h.notSkipped])]
  split
  · rfl
  · rename_i hfound
    rw [hread] at hfound
    cases hfound

/-- **What is left to be done** after a scan. -/
theorem Scan.tokensFrom_eq (h : Scan cut tokens cut') :
    tokensFrom (cut.1.length + 1) cut.2 =
      (tokensFrom (cut'.1.length + 1) cut'.2).map (tokens ++ ·) := by
  induction h with
  | stop cut => cases tokensFrom (cut.1.length + 1) cut.2 <;> rfl
  | skip skipped _ ih =>
      dsimp only at ih ⊢
      rw [List.length_append, List.length_singleton] at ih
      rw [tokensFrom_skip skipped, ih]
  | @lexeme before w rest t tokens cut longest _ ih =>
      dsimp only at ih ⊢
      rw [List.length_append, Nat.add_right_comm] at ih
      rw [tokensFrom_lexeme longest, ih]
      cases tokensFrom (cut.1.length + 1) cut.2 <;> rfl

/-- **A scan ends** at the end of the source, or where it is stuck. The induction is on what is
    left: a gap shortens it by a character, a lexeme by its length. -/
theorem exists_scan (before rest : List Char) :
    ∃ tokens before' rest', Scan (before, rest) tokens (before', rest') ∧
      (rest' = [] ∨ ∃ c cs, rest' = c :: cs ∧ Stuck c cs) := by
  induction hn : rest.length using Nat.strongRecOn generalizing before rest with
  | ind n ih =>
      cases rest with
      | nil => exact ⟨[], before, [], .stop _, .inl rfl⟩
      | cons c cs =>
          by_cases hc : isSkipped c = true
          · obtain ⟨tokens, before', rest', hscan, hend⟩ :=
              ih cs.length (by rw [← hn]; exact Nat.lt_succ_self _) (before ++ [c]) cs rfl
            exact ⟨tokens, before', rest', .skip hc hscan, hend⟩
          · -- outside a gap there is a lexeme, or the scan is stuck
            cases hread : lexeme? (c :: cs) with
            | none =>
                refine ⟨[], before, c :: cs, .stop _, .inr ⟨c, cs, rfl, by simpa using hc, ?_⟩⟩
                exact lexeme?_eq_none_iff.mp hread
            | some found =>
                obtain ⟨w, t⟩ := found
                have hlexeme := lexeme?_eq_some_iff.mp hread
                obtain ⟨behind, hbehind⟩ := hlexeme.front
                have hpos := List.length_pos_iff.mpr hlexeme.spells.ne_nil
                rw [← hbehind] at hlexeme hn ⊢
                rw [List.length_append] at hn
                obtain ⟨tokens, before', rest', hscan, hend⟩ :=
                  ih behind.length (by omega) (before ++ w) behind rfl
                exact ⟨_, before', rest', .lexeme hlexeme hscan, hend⟩

/-! ## Positions -/

/-- **Positions increase strictly**, and lie behind what was scanned before. -/
theorem Scan.increasing (h : Scan cut tokens cut') :
    (∀ p ∈ tokens, cut.1.length < p.position) ∧
      tokens.Pairwise fun p q => p.position < q.position := by
  induction h with
  | stop => simp
  | skip _ _ ih =>
      refine ⟨fun p hp => ?_, ih.2⟩
      have hbehind := ih.1 p hp
      rw [List.length_append] at hbehind
      dsimp only at hbehind ⊢
      omega
  | @lexeme before w rest t tokens cut longest _ ih =>
      have hpos := List.length_pos_iff.mpr longest.spells.ne_nil
      have hbehind : ∀ p ∈ tokens, before.length + w.length < p.position := by
        intro p hp
        have hlater := ih.1 p hp
        rwa [List.length_append] at hlater
      constructor
      · intro p hp
        rcases List.mem_cons.mp hp with rfl | hlater
        · exact Nat.lt_succ_self _
        · have hfar := hbehind p hlater
          dsimp only
          omega
      · refine List.pairwise_cons.mpr ⟨fun p hp => ?_, ih.2⟩
        have hfar := hbehind p hp
        dsimp only
        omega

/-! ## Spaced words -/

/-- **Tokens written out**, each as a word that spells it, with a skipped character between
    neighbours and any number of them everywhere. -/
inductive Spaced : List Token → List Char → Prop
  | gap {gap : List Char} (skipped : ∀ c ∈ gap, isSkipped c = true) : Spaced [] gap
  | last {gap w : List Char} {t : Token} (skipped : ∀ c ∈ gap, isSkipped c = true)
      (word : Spells w t) : Spaced [t] (gap ++ w)
  | next {gap w cs : List Char} {c : Char} {t : Token} {tokens : List Token}
      (skipped : ∀ c ∈ gap, isSkipped c = true) (word : Spells w t) (blank : isSkipped c = true)
      (more : Spaced tokens cs) : Spaced (t :: tokens) (gap ++ (w ++ c :: cs))

/-- A gap is passed over. -/
theorem Scan.gap {gap : List Char} {tokens : List Placed} (hgap : ∀ c ∈ gap, isSkipped c = true)
    (more : Scan (before ++ gap, rest) tokens cut) : Scan (before, gap ++ rest) tokens cut := by
  induction gap generalizing before with
  | nil => rwa [List.append_nil] at more
  | cons c cs ih =>
      rw [List.forall_mem_cons] at hgap
      refine .skip hgap.1 (ih hgap.2 ?_)
      rwa [List.append_assoc, List.singleton_append]

/-- **Spaced words are scanned one by one.** -/
theorem Spaced.exists_scan {tokens : List Token} (h : Spaced tokens cs) (before : List Char) :
    ∃ placed, Scan (before, cs) placed (before ++ cs, []) ∧ placed.map (·.token) = tokens := by
  induction h generalizing before with
  | @gap gap skipped =>
      have hend : Scan (before ++ gap, []) [] (before ++ gap, []) := .stop _
      refine ⟨[], ?_, rfl⟩
      simpa using Scan.gap skipped hend
  | @last gap w t skipped word =>
      have hend : Scan (before ++ gap ++ w, []) [] (before ++ (gap ++ w), []) := by
        rw [List.append_assoc]
        exact .stop _
      have hword := Scan.lexeme (word.isLexeme (by simp)) hend
      rw [List.append_nil] at hword
      exact ⟨_, .gap skipped hword, rfl⟩
  | @next gap w cs c t tokens skipped word blank more ih =>
      obtain ⟨placed, hscan, htokens⟩ := ih (before ++ gap ++ w ++ [c])
      have hword : IsLexeme (w ++ c :: cs) w t := word.isLexeme (by simpa using blank)
      have hnext := Scan.gap skipped (.lexeme hword (.skip blank hscan))
      refine ⟨_, by simpa using hnext, ?_⟩
      rw [List.map_cons, htokens]

/-! ## Numbers -/

section Numbers

open Decimal (Reads Writes WritesMantissa WritesPower)

theorem exists_writesMantissa {m : List Char} (h : m ∈ mantissaPattern) :
    ∃ q, WritesMantissa m q := by
  rcases mem_mantissaPattern.mp h with ⟨-, hdigits⟩ | ⟨whole, places, rfl, hwhole, hplaces, -⟩
  · exact ⟨_, .whole hdigits⟩
  · exact ⟨_, .pointed hwhole hplaces⟩

theorem exists_writesPower {e : List Char} (h : e ∈ exponentPattern) : ∃ r, WritesPower e r := by
  obtain ⟨mark, sign, digits, rfl, hmark, hsign, -, hdigits⟩ := mem_exponentPattern.mp h
  have hmarked : mark = 'e' ∨ mark = 'E' := by
    simpa [Decimal.isExponentMark] using hmark
  simp only [List.mem_cons, List.not_mem_nil, or_false] at hsign
  rcases hsign with rfl | rfl | rfl
  · exact ⟨_, .unsigned hmarked hdigits⟩
  · exact ⟨_, .plus hmarked hdigits⟩
  · exact ⟨_, .minus hmarked hdigits⟩

/-- Every word of the number pattern writes a number. -/
theorem exists_writes (h : w ∈ numberPattern) : ∃ q, Writes w q := by
  obtain ⟨m, e, rfl, hm, he⟩ := mem_numberPattern.mp h
  obtain ⟨q, hmantissa⟩ := exists_writesMantissa hm
  rcases he with rfl | hpower
  · exact ⟨_, .scaled hmantissa .absent⟩
  · obtain ⟨r, hscale⟩ := exists_writesPower hpower
    exact ⟨_, .scaled hmantissa hscale⟩

/-- **A number's word** writes a number, and the token has the double that it is read as. -/
theorem Spells.reads_number {x : Float} (h : Spells w (.number x)) :
    (∃ q, Writes w q) ∧ ∀ q, Writes w q → Reads q x := by
  cases h with
  | sign hw =>
      simp only [signs, List.mem_cons, Prod.mk.injEq, reduceCtorEq, and_false, List.not_mem_nil,
        or_false] at hw
  | number hw => exact ⟨exists_writes hw, fun _ => Decimal.reads_floatOfLiteral⟩

end Numbers

/-! ## All together -/

/-- A source that is scanned to its end has the tokens of the scan. -/
theorem tokenize_of_scan {source : String} (h : Scan ([], source.toList) tokens (before, [])) :
    tokenize source = .ok tokens := by
  have hrun := h.tokensFrom_eq
  rw [tokensFrom_nil] at hrun
  exact hrun.trans (congrArg Except.ok (List.append_nil tokens))

/-- A source whose scan gets stuck has no tokens. -/
theorem tokenize_of_stuck {source : String}
    (h : Scan ([], source.toList) tokens (before, c :: rest)) (hstuck : Stuck c rest) :
    tokenize source =
      .error (.unexpectedCharacter (String.singleton c) (before.length + 1)) := by
  have hrun := h.tokensFrom_eq
  rw [tokensFrom_stuck hstuck] at hrun
  exact hrun

/-- **Tokenizing is scanning.** A source is tokenized when it can be scanned to its end, and the
    tokens are those of the scan; otherwise the error names the character where the scan is stuck
    and its position. Positions increase strictly. Words with gaps between them give back the tokens
    that they spell, and a number is the double nearest to what its word writes. -/
theorem tokenize_exact (source : String) :
    (∀ tokens, tokenize source = .ok tokens ↔
      Scan ([], source.toList) tokens (source.toList, [])) ∧
      (∀ e, tokenize source = .error e ↔
        ∃ tokens before c rest, Scan ([], source.toList) tokens (before, c :: rest) ∧
          Stuck c rest ∧
          e = .unexpectedCharacter (String.singleton c) (before.length + 1)) ∧
      (∀ tokens, tokenize source = .ok tokens →
        tokens.Pairwise fun p q => p.position < q.position) ∧
      (∀ tokens, Spaced tokens source.toList →
        ∃ placed, tokenize source = .ok placed ∧ placed.map (·.token) = tokens) ∧
      ∀ w x, Spells w (.number x) →
        (∃ q, Decimal.Writes w q) ∧ ∀ q, Decimal.Writes w q → Decimal.Reads q x := by
  obtain ⟨scanned, before, rest, hscan, hcut⟩ := exists_scan [] source.toList
  have hok : ∀ tokens, tokenize source = .ok tokens →
      Scan ([], source.toList) tokens (source.toList, []) := by
    intro tokens htokens
    rcases hcut with rfl | ⟨c, cs, rfl, hstuck⟩
    · have hsource : before = source.toList := by simpa using hscan.source_eq
      rw [tokenize_of_scan hscan] at htokens
      rwa [Except.ok.inj htokens, hsource] at hscan
    · rw [tokenize_of_stuck hscan hstuck] at htokens
      exact absurd htokens nofun
  have herror : ∀ e, tokenize source = .error e →
      ∃ tokens before c rest, Scan ([], source.toList) tokens (before, c :: rest) ∧
        Stuck c rest ∧ e = .unexpectedCharacter (String.singleton c) (before.length + 1) := by
    intro e he
    rcases hcut with rfl | ⟨c, cs, rfl, hstuck⟩
    · rw [tokenize_of_scan hscan] at he
      exact absurd he nofun
    · rw [tokenize_of_stuck hscan hstuck] at he
      exact ⟨scanned, before, c, cs, hscan, hstuck, (Except.error.inj he).symm⟩
  refine ⟨fun tokens => ⟨hok tokens, tokenize_of_scan⟩, fun e => ⟨herror e, ?_⟩, ?_, ?_,
    fun _ _ => Spells.reads_number⟩
  · rintro ⟨tokens, before', c, cs, hscan', hstuck, rfl⟩
    exact tokenize_of_stuck hscan' hstuck
  · intro tokens htokens
    exact (hok tokens htokens).increasing.2
  · intro tokens hspaced
    obtain ⟨placed, hplaced, htokens⟩ := hspaced.exists_scan []
    exact ⟨placed, tokenize_of_scan hplaced, htokens⟩

/-- A number that ends in a point, two stars, and a line break before a number that begins with
    one. -/
theorem tokenize_spaced_powers :
    Spaced [.number 1.0, .symbol "ω_1", .caret, .number 0.5] " 1. ω_1 **\n.5".toList ∧
      ∃ placed, tokenize " 1. ω_1 **\n.5" = .ok placed ∧
        placed.map (·.token) = [.number 1.0, .symbol "ω_1", .caret, .number 0.5] := by
  have hread : ∀ {w t}, lexeme? w = some (w, t) → Spells w t := fun h => (lexeme?_spec h).1
  have honeValue : Decimal.floatOfLiteral ['1', '.'] = 1.0 := by decide +kernel
  have hhalfValue : Decimal.floatOfLiteral ['.', '5'] = 0.5 := by decide +kernel
  have hone : Spells ['1', '.'] (.number 1.0) := honeValue ▸ hread rfl
  have homega : Spells ['ω', '_', '1'] (.symbol "ω_1") := hread rfl
  have hhalf : Spells ['.', '5'] (.number 0.5) := hhalfValue ▸ hread rfl
  have hpower : Spells ['*', '*'] .caret := hread rfl
  have hgap : ∀ c ∈ ([] : List Char), isSkipped c = true := by simp
  have hcaret : Spaced _ ([] ++ (['*', '*'] ++ '\n' :: ([] ++ ['.', '5']))) :=
    .next hgap hpower (by decide) (.last hgap hhalf)
  have hspaced : Spaced _ ([' '] ++ (['1', '.'] ++ ' ' :: ([] ++ (['ω', '_', '1'] ++ ' ' :: _)))) :=
    .next (by simp [isSkipped]) hone (by decide) (.next hgap homega (by decide) hcaret)
  exact ⟨hspaced, (tokenize_exact " 1. ω_1 **\n.5").2.2.2.1 _ hspaced⟩

end Reckoner.Formula
