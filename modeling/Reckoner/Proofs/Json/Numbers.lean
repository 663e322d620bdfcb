import Reckoner.Json.Basic
import Reckoner.Json.Draft
import Reckoner.Proofs.Decimal.Digits

/-!
# `Reckoner.Proofs.Json.Numbers` — number literals

A literal is put together from its parts: digits, digits behind a point, and a power of ten. It is
scanned as a whole wherever nothing behind it could belong to it.

## Contents
- **Parts.** `NumberParts` and the text of them.
- **Scanning.** `numberLiteral_chars`: a literal is found in front of a text.
- **Values.** `ofLiteral_chars`: the decimal that a literal stands for.
-/

namespace Reckoner.Json

open Decimal (isExponentMark natOfDigits intOfDigits)

/-! ## Parts -/

/-- The parts of a number that is not negative. -/
structure NumberParts where
  whole : List Char
  /-- The digits behind the point; there is no point when there are none. -/
  places : List Char := []
  /-- The sign and the digits of a power of ten. -/
  power : Option (Char × List Char) := none

namespace NumberParts

def placesChars (p : NumberParts) : List Char :=
  if p.places = [] then [] else '.' :: p.places

def powerChars (p : NumberParts) : List Char :=
  match p.power with
  | none => []
  | some (sign, ds) => 'e' :: sign :: ds

/-- The literal of the parts. -/
def chars (p : NumberParts) : List Char := p.whole ++ p.placesChars ++ p.powerChars

/-- The parts are those of a JSON number. -/
structure WellFormed (p : NumberParts) : Prop where
  whole_digits : ∀ c ∈ p.whole, c.isDigit = true
  whole_ne_nil : p.whole ≠ []
  no_leading_zero : ∀ more, p.whole = '0' :: more → more = []
  places_digits : ∀ c ∈ p.places, c.isDigit = true
  power_form : ∀ sign ds, p.power = some (sign, ds) →
    (sign = '+' ∨ sign = '-') ∧ ds ≠ [] ∧ ∀ c ∈ ds, c.isDigit = true

end NumberParts

/-! ## Scanning -/

/-- Nothing in front of the text belongs to a number. -/
def EndsNumber (rest : List Char) : Prop :=
  ∀ c ∈ rest.head?, c.isDigit = false ∧ c ≠ '.' ∧ isExponentMark c = false

variable {p : NumberParts} {rest : List Char}

theorem wholePart_chars (h : p.WellFormed) (hrest : ∀ c ∈ rest.head?, c.isDigit = false) :
    wholePart (p.whole ++ rest) = .ok p.whole := by
  have hne := h.whole_ne_nil
  have hzero := h.no_leading_zero
  unfold wholePart
  rw [Decimal.takeWhile_of_boundary h.whole_digits hrest]
  split
  · rename_i heq
    exact absurd heq hne
  · rename_i heq
    exact absurd (hzero _ heq) nofun
  · rfl

theorem places_chars (h : p.WellFormed) (hdigit : ∀ c ∈ rest.head?, c.isDigit = false)
    (hpoint : ∀ c ∈ rest.head?, c ≠ '.') :
    places (p.placesChars ++ rest) = .ok p.placesChars := by
  unfold NumberParts.placesChars
  split
  · unfold places
    split
    · rename_i heq
      exact absurd rfl (hpoint '.' (by simp_all))
    · rfl
  · rename_i hne
    simp only [List.cons_append, places, Decimal.takeWhile_of_boundary h.places_digits hdigit]
    simp [hne]

theorem power_chars (h : p.WellFormed) (hdigit : ∀ c ∈ rest.head?, c.isDigit = false)
    (hmark : ∀ c ∈ rest.head?, isExponentMark c = false) :
    power (p.powerChars ++ rest) = .ok p.powerChars := by
  unfold NumberParts.powerChars
  split
  · cases rest with
    | nil => rfl
    | cons c cs => simp [power, hmark c rfl]
  · rename_i sign ds hpower
    obtain ⟨hsign, hne, hds⟩ := h.power_form sign ds hpower
    have htake : (ds ++ rest).takeWhile Char.isDigit = ds := Decimal.takeWhile_of_boundary hds hdigit
    have hmark : isExponentMark 'e' = true := by decide
    rcases hsign with rfl | rfl
    · simp [power, Decimal.exponentPart, hmark, htake, hne]
    · simp [power, Decimal.exponentPart, hmark, htake, hne]

/-- What follows the digits before the point is no digit. -/
theorem head?_behind_whole (hrest : EndsNumber rest) :
    ∀ c ∈ (p.placesChars ++ (p.powerChars ++ rest)).head?, c.isDigit = false := by
  unfold NumberParts.placesChars NumberParts.powerChars
  intro c hc
  split at hc
  · split at hc
    · exact (hrest c hc).1
    · obtain rfl := Option.some.inj hc
      decide
  · obtain rfl := Option.some.inj hc
    decide

/-- What follows the digits behind the point is neither a digit nor a point. -/
theorem head?_behind_places (hrest : EndsNumber rest) :
    ∀ c ∈ (p.powerChars ++ rest).head?, c.isDigit = false ∧ c ≠ '.' := by
  unfold NumberParts.powerChars
  intro c hc
  split at hc
  · exact ⟨(hrest c hc).1, (hrest c hc).2.1⟩
  · obtain rfl := Option.some.inj hc
    decide

/-- The literal behind its sign. -/
theorem numberLiteral_unsigned (h : p.WellFormed) (hrest : EndsNumber rest) (sign : List Char) :
    (do
      let whole ← wholePart (p.chars ++ rest)
      let fraction ← places ((p.chars ++ rest).drop whole.length)
      let scale ← power ((p.chars ++ rest).drop (whole.length + fraction.length))
      return sign ++ whole ++ fraction ++ scale) = (.ok (sign ++ p.chars) : Except Cut _) := by
  have hchars : p.chars ++ rest = p.whole ++ (p.placesChars ++ (p.powerChars ++ rest)) := by
    simp [NumberParts.chars]
  have hplaces : (p.chars ++ rest).drop p.whole.length = p.placesChars ++ (p.powerChars ++ rest) := by
    rw [hchars, List.drop_left]
  have hpower : (p.chars ++ rest).drop (p.whole.length + p.placesChars.length) =
      p.powerChars ++ rest := by
    rw [← List.drop_drop, hplaces, List.drop_left]
  rw [show wholePart (p.chars ++ rest) = .ok p.whole by
    rw [hchars]
    exact wholePart_chars h (head?_behind_whole hrest)]
  simp only [bind, Except.bind, hplaces]
  rw [places_chars h (fun c hc => (head?_behind_places hrest c hc).1)
    (fun c hc => (head?_behind_places hrest c hc).2)]
  simp only [hpower]
  rw [power_chars h (fun c hc => (hrest c hc).1) (fun c hc => (hrest c hc).2.2)]
  simp [NumberParts.chars, pure, Except.pure]

theorem head?_chars_ne_minus (h : p.WellFormed) : (p.chars ++ rest).head? ≠ some '-' := by
  intro hminus
  obtain ⟨c, more, hwhole⟩ := List.exists_cons_of_ne_nil h.whole_ne_nil
  have hdigit := h.whole_digits c (hwhole ▸ List.mem_cons_self)
  simp only [NumberParts.chars, hwhole, List.cons_append, List.head?_cons] at hminus
  rw [Option.some.inj hminus] at hdigit
  exact absurd hdigit (by decide)

/-- **Scanning.** A number in front of a text is found. -/
theorem numberLiteral_chars (h : p.WellFormed) (negative : Bool) (hrest : EndsNumber rest) :
    numberLiteral ((if negative then ['-'] else []) ++ p.chars ++ rest) =
      .ok ((if negative then ['-'] else []) ++ p.chars) := by
  cases negative with
  | true => exact numberLiteral_unsigned h hrest ['-']
  | false =>
      have hsign : ((p.chars ++ rest).head? == some '-') = false :=
        beq_eq_false_iff_ne.mpr (head?_chars_ne_minus h)
      have hliteral := numberLiteral_unsigned h hrest []
      simpa only [numberLiteral, Bool.false_eq_true, if_false, List.nil_append, hsign,
        List.length_nil, List.drop_zero] using hliteral

/-! ## Values -/

/-- The power of ten of a literal, places aside. -/
def NumberParts.scale (p : NumberParts) : Int :=
  match p.power with
  | none => 0
  | some (sign, ds) => intOfDigits (sign :: ds)

/-- The decimal that a literal stands for, in units of the last place. -/
def NumberParts.value (p : NumberParts) : Decimal :=
  ⟨natOfDigits (p.whole ++ p.places), p.scale - p.places.length⟩

/-- No digit or point marks a power of ten. -/
theorem not_mark_places (h : p.WellFormed) : ∀ c ∈ p.placesChars, isExponentMark c = false := by
  unfold NumberParts.placesChars
  intro c hc
  split at hc
  · exact absurd hc List.not_mem_nil
  · rcases List.mem_cons.mp hc with rfl | hdigit
    · decide
    · exact Decimal.not_mark_of_isDigit (h.places_digits c hdigit)

theorem mark_power : ∀ c ∈ p.powerChars.head?, isExponentMark c = true := by
  unfold NumberParts.powerChars
  intro c hc
  split at hc
  · exact absurd hc nofun
  · obtain rfl := Option.some.inj hc
    decide

/-- **Values.** A literal is read as what it stands for. -/
theorem ofLiteral_chars (h : p.WellFormed) : Decimal.ofLiteral p.chars = p.value := by
  have hpoint : ∀ c ∈ p.placesChars.head?, c = '.' := by
    unfold NumberParts.placesChars
    intro c hc
    split at hc
    · exact absurd hc nofun
    · exact (Option.some.inj hc).symm
  have hplaces : p.placesChars.drop 1 = p.places := by
    unfold NumberParts.placesChars
    split
    · rename_i hnil
      simp [hnil]
    · rfl
  have hscale : intOfDigits (p.powerChars.drop 1) = p.scale := by
    unfold NumberParts.powerChars NumberParts.scale
    split
    · rfl
    · rfl
  rw [NumberParts.chars, Decimal.ofLiteral_eq h.whole_digits hpoint (not_mark_places h) mark_power,
    hplaces, hscale, NumberParts.value]

/-! ## Written numbers -/

/-- A run of digits that does not begin with zero, or is zero. -/
def IsWhole (ds : List Char) : Prop :=
  ds ≠ [] ∧ (∀ c ∈ ds, c.isDigit = true) ∧ ∀ more, ds = '0' :: more → more = []

theorem isWhole_digitsOf (n : Nat) : IsWhole (Decimal.digitsOf n) := by
  refine ⟨Decimal.digitsOf_ne_nil n, fun c => Decimal.isDigit_of_mem_digitsOf, fun more h => ?_⟩
  cases n with
  | zero => exact (List.cons.inj h).2.symm
  | succ n =>
      have hhead := Decimal.head?_digitsOf_ne_zero (Nat.succ_pos n)
      rw [h] at hhead
      exact absurd rfl hhead

/-- Digits of a positive number, taken from the front, and perhaps followed by others. -/
theorem isWhole_of_prefix {n : Nat} (hn : 0 < n) {ds more : List Char} (hne : ds ≠ [])
    (hfront : ds <+: Decimal.digitsOf n) (hmore : ∀ c ∈ more, c.isDigit = true) :
    IsWhole (ds ++ more) := by
  obtain ⟨c, tail, rfl⟩ := List.exists_cons_of_ne_nil hne
  obtain ⟨behind, hbehind⟩ := hfront
  refine ⟨nofun, fun d hd => ?_, fun others h => ?_⟩
  · rcases List.mem_append.mp hd with hfront | hback
    · refine Decimal.isDigit_of_mem_digitsOf (n := n) ?_
      rw [← hbehind]
      exact List.mem_append_left _ hfront
    · exact hmore d hback
  · have hhead := Decimal.head?_digitsOf_ne_zero hn
    rw [← hbehind, (List.cons.inj h).1] at hhead
    exact absurd rfl hhead

/-- Digits of a positive number, taken from the front. -/
theorem isWhole_prefix {n : Nat} (hn : 0 < n) {ds : List Char} (hne : ds ≠ [])
    (hfront : ds <+: Decimal.digitsOf n) : IsWhole ds := by
  have hwhole := isWhole_of_prefix hn hne hfront fun _ h => absurd h List.not_mem_nil
  rwa [List.append_nil] at hwhole

/-- The parts of a decimal in positional notation. -/
def positionalParts (d : Decimal) : NumberParts :=
  let ds := d.digits
  if 0 ≤ d.exponent then { whole := ds ++ List.replicate d.exponent.toNat '0', places := ['0'] }
  else
    let places := (-d.exponent).toNat
    if places < ds.length then
      { whole := ds.take (ds.length - places), places := ds.drop (ds.length - places) }
    else { whole := ['0'], places := List.replicate (places - ds.length) '0' ++ ds }

/-- The parts of a decimal in scientific notation. -/
def scientificParts (d : Decimal) : NumberParts where
  whole := d.digits.take 1
  places := d.digits.drop 1
  power := some (if d.leading < 0 then '-' else '+', Decimal.digitsOf d.leading.natAbs)

/-- The parts of a decimal. -/
def partsOf (d : Decimal) : NumberParts :=
  if d.coefficient == 0 || ((-5 : Int) ≤ d.leading && d.leading < 16) then positionalParts d
  else scientificParts d

theorem chars_positionalParts (d : Decimal) :
    (positionalParts d).chars = Decimal.positionalChars true d := by
  unfold positionalParts Decimal.positionalChars
  dsimp only
  split
  · simp [NumberParts.chars, NumberParts.placesChars, NumberParts.powerChars]
  · split
    · rename_i hplaces
      have hne : d.digits.drop (d.digits.length - (-d.exponent).toNat) ≠ [] := by
        rw [ne_eq, List.drop_eq_nil_iff]
        omega
      simp [NumberParts.chars, NumberParts.placesChars, NumberParts.powerChars, hne]
    · simp [NumberParts.chars, NumberParts.placesChars, NumberParts.powerChars,
        Decimal.digits, Decimal.digitsOf_ne_nil]

theorem chars_scientificParts (d : Decimal) :
    (scientificParts d).chars = Decimal.scientificChars false d := by
  unfold scientificParts Decimal.scientificChars Decimal.exponentChars
  dsimp only
  cases hds : d.digits with
  | nil => exact absurd hds (Decimal.digitsOf_ne_nil _)
  | cons c rest =>
      cases rest <;>
        simp [NumberParts.chars, NumberParts.placesChars, NumberParts.powerChars]

theorem chars_partsOf (d : Decimal) : (partsOf d).chars = numberLayout.decimalChars d := by
  unfold partsOf Decimal.Layout.decimalChars numberLayout
  dsimp only
  split
  · exact chars_positionalParts d
  · exact chars_scientificParts d

/-- A decimal as it comes from a double: zero, or with a positive coefficient. -/
def IsPlain (d : Decimal) : Prop := 0 < d.coefficient ∨ d = ⟨0, 0⟩

theorem wellFormed_of_isWhole {whole places : List Char} (hwhole : IsWhole whole)
    (hplaces : ∀ c ∈ places, c.isDigit = true) :
    NumberParts.WellFormed { whole, places } where
  whole_digits := hwhole.2.1
  whole_ne_nil := hwhole.1
  no_leading_zero := hwhole.2.2
  places_digits := hplaces
  power_form _ _ h := absurd h nofun

theorem wellFormed_positionalParts {d : Decimal} (h : IsPlain d) :
    (positionalParts d).WellFormed := by
  rcases h with hpos | rfl
  · unfold positionalParts
    dsimp only
    split
    · refine wellFormed_of_isWhole ?_ (List.forall_mem_singleton.mpr rfl)
      exact isWhole_of_prefix hpos (Decimal.digitsOf_ne_nil _) (List.prefix_refl _)
        fun c => Decimal.isDigit_of_mem_zeros
    · split
      · rename_i hplaces
        refine wellFormed_of_isWhole ?_ fun c hc =>
          Decimal.isDigit_of_mem_digitsOf (List.mem_of_mem_drop hc)
        have hne : d.digits.take (d.digits.length - (-d.exponent).toNat) ≠ [] := by
          rw [ne_eq, List.take_eq_nil_iff]
          rintro (hzero | hnil)
          · omega
          · exact Decimal.digits_ne_nil d hnil
        exact isWhole_prefix hpos hne (List.take_prefix _ _)
      · refine wellFormed_of_isWhole (isWhole_digitsOf 0) fun c hc => ?_
        rcases List.mem_append.mp hc with hzero | hdigit
        · exact Decimal.isDigit_of_mem_zeros hzero
        · exact Decimal.isDigit_of_mem_digitsOf hdigit
  · exact wellFormed_of_isWhole (isWhole_digitsOf 0) (List.forall_mem_singleton.mpr rfl)

theorem wellFormed_scientificParts {d : Decimal} (h : 0 < d.coefficient) :
    (scientificParts d).WellFormed := by
  have hne : d.digits.take 1 ≠ [] := by
    rw [ne_eq, List.take_eq_nil_iff]
    simpa using Decimal.digits_ne_nil d
  have hwhole := isWhole_prefix h hne (List.take_prefix _ _)
  refine ⟨hwhole.2.1, hwhole.1, hwhole.2.2,
    fun c hc => Decimal.isDigit_of_mem_digitsOf (List.mem_of_mem_drop hc), fun sign ds hpower => ?_⟩
  obtain ⟨hsign, rfl⟩ := Prod.mk.inj (Option.some.inj hpower)
  refine ⟨?_, Decimal.digitsOf_ne_nil _, fun c => Decimal.isDigit_of_mem_digitsOf⟩
  rw [← hsign]
  split
  · exact .inr rfl
  · exact .inl rfl

theorem wellFormed_partsOf {d : Decimal} (h : IsPlain d) : (partsOf d).WellFormed := by
  unfold partsOf
  split
  · exact wellFormed_positionalParts h
  · rename_i hscientific
    have hne : d.coefficient ≠ 0 := by
      intro hzero
      simp [hzero] at hscientific
    exact wellFormed_scientificParts (Nat.pos_of_ne_zero hne)

/-- In positional notation there may be more places than the decimal has, all of them zero. -/
theorem value_positionalParts (d : Decimal) :
    ∃ k : Nat, (positionalParts d).value = ⟨d.coefficient * 10 ^ k, d.exponent - k⟩ := by
  have hdigits : natOfDigits d.digits = d.coefficient := Decimal.natOfDigits_digitsOf _
  unfold positionalParts NumberParts.value NumberParts.scale
  dsimp only
  -- the point stands behind the digits, inside of them or in front of them
  split
  · refine ⟨d.exponent.toNat + 1, ?_⟩
    have hzeros : d.digits ++ List.replicate d.exponent.toNat '0' ++ ['0'] =
        d.digits ++ List.replicate (d.exponent.toNat + 1) '0' := by
      rw [List.append_assoc, List.replicate_succ']
    rw [hzeros, Decimal.natOfDigits_append_zeros, hdigits]
    congr 1
    simp only [List.length_singleton]
    omega
  · refine ⟨0, ?_⟩
    split
    · simp only [List.take_append_drop, hdigits, List.length_drop]
      congr 1
      · omega
      · omega
    · have hzeros : ['0'] ++ (List.replicate ((-d.exponent).toNat - d.digits.length) '0' ++
          d.digits) =
          List.replicate ((-d.exponent).toNat - d.digits.length + 1) '0' ++ d.digits := rfl
      rw [hzeros, Decimal.natOfDigits_zeros_append, hdigits]
      simp only [List.length_append, List.length_replicate]
      congr 1
      · omega
      · omega

/-- A whole number is read back behind its sign. -/
theorem intOfDigits_sign (n : Int) :
    intOfDigits ((if n < 0 then '-' else '+') :: Decimal.digitsOf n.natAbs) = n := by
  split
  · simp only [intOfDigits, Decimal.natOfDigits_digitsOf]
    omega
  · simp only [intOfDigits, Decimal.natOfDigits_digitsOf]
    omega

theorem value_scientificParts (d : Decimal) : (scientificParts d).value = d := by
  have hdigits : natOfDigits d.digits = d.coefficient := Decimal.natOfDigits_digitsOf _
  have hlength : 0 < d.digits.length := List.length_pos_iff.mpr (Decimal.digitsOf_ne_nil _)
  unfold scientificParts NumberParts.value NumberParts.scale
  simp only [List.take_append_drop, hdigits, intOfDigits_sign, List.length_drop]
  congr 1
  unfold Decimal.leading
  omega

/-- What is written stands for the same number, in units of the last place written. -/
theorem ofLiteral_partsOf {d : Decimal} (h : IsPlain d) :
    ∃ k : Nat, Decimal.ofLiteral (partsOf d).chars = ⟨d.coefficient * 10 ^ k, d.exponent - k⟩ := by
  rw [ofLiteral_chars (wellFormed_partsOf h)]
  unfold partsOf
  split
  · exact value_positionalParts d
  · exact ⟨0, by simp [value_scientificParts]⟩

end Reckoner.Json
