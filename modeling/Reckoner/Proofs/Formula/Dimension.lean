import Mathlib.Algebra.Order.Field.Power
import Mathlib.Data.Rat.Cast.Order
import Mathlib.Tactic.FieldSimp
import Mathlib.Tactic.NormNum
import Mathlib.Tactic.Ring
import Reckoner.Proofs.CompoundUnit.Exponents
import Reckoner.Proofs.Formula.Bindings

/-!
# `Reckoner.Proofs.Formula.Dimension` — the unit of a formula is its dimension

`Expr.measure` computes units in lists of factors with exponents of 32 bits, beside the values, and
goes on with a dimensionless unit wherever an exponent does not fit or is not a whole number. The
dimension of a tree is an exponent vector of unbounded whole numbers, defined by the rules of
physics alone. As long as nothing was remarked on exponents, the two are the same at every node.

## Contents
- **Whole numbers.** `IsWhole`: the whole number that a double is.
- **Dimensions.** `Expr.Dimension`, the rules; `Dimension.unique`.
- **One operation.** `dimension_product`, `dimension_quotient`, `dimension_power`.
- **Trees and formulas.** `measure_dimension` and `evaluate_dimension`.
-/

namespace Reckoner

/-! ## Whole numbers -/

/-- The exact value of a finite double. -/
def Binary.toRat (b : Binary) : ℚ := (if b.negative then -1 else 1) * b.mantissa * 2 ^ b.exponent

/-- The double is a whole number. -/
def IsWhole (x : Float) (n : Int) : Prop := ∃ b, Reading.ofFloat x = .finite b ∧ b.toRat = n

theorem IsWhole.unique {x : Float} {m n : Int} (hm : IsWhole x m) (hn : IsWhole x n) : m = n := by
  obtain ⟨b, hb, hbm⟩ := hm
  obtain ⟨c, hc, hcn⟩ := hn
  obtain rfl : b = c := Reading.finite.inj (hb.symm.trans hc)
  exact_mod_cast hbm.symm.trans hcn

/-- A signed natural number is a given whole number. -/
theorem signed_eq_iff {negative : Bool} {k : Nat} {n : Int} :
    (if negative then -(k : Int) else k) = n ↔ (if negative then -1 else 1) * (k : ℚ) = n := by
  cases negative <;> simp <;> norm_cast

/-- **Recognising whole numbers.** -/
theorem Binary.whole?_eq_some_iff {b : Binary} {n : Int} : b.whole? = some n ↔ b.toRat = n := by
  unfold Binary.whole? Binary.toRat
  by_cases he : 0 ≤ b.exponent
  · -- all binary places are in front of the point
    have hpower : (2 : ℚ) ^ b.exponent = ((Nat.pow 2 b.exponent.toNat : Nat) : ℚ) := by
      obtain ⟨k, hk⟩ := Int.eq_ofNat_of_zero_le he
      rw [hk, Int.toNat_natCast, zpow_natCast, Nat.pow_eq, Nat.cast_pow, Nat.cast_ofNat]
    rw [if_pos he, Option.some.injEq, signed_eq_iff, hpower, Nat.cast_mul, mul_assoc]
  · have hscale : (2 : ℚ) ^ b.exponent = ((Nat.pow 2 (-b.exponent).toNat : Nat) : ℚ)⁻¹ := by
      obtain ⟨k, hk⟩ : ∃ k : Nat, b.exponent = -k := ⟨b.exponent.natAbs, by omega⟩
      rw [hk, Int.neg_neg, Int.toNat_natCast, zpow_neg, zpow_natCast, Nat.pow_eq, Nat.cast_pow,
        Nat.cast_ofNat]
    have hpos : 0 < Nat.pow 2 (-b.exponent).toNat := Nat.pow_pos (by decide)
    rw [if_neg he, hscale]
    generalize Nat.pow 2 (-b.exponent).toNat = scale at hpos
    have hne : (scale : ℚ) ≠ 0 := by exact_mod_cast hpos.ne'
    by_cases hdvd : scale ∣ b.mantissa
    · obtain ⟨k, hk⟩ := hdvd
      have hdiv : b.mantissa / scale = k := by rw [hk, Nat.mul_div_cancel_left k hpos]
      have hmod : (b.mantissa % scale == 0) = true := by simp [hk]
      rw [if_pos hmod, hdiv, Option.some.injEq, signed_eq_iff, hk]
      push_cast
      field_simp
    · have hmod : ¬(b.mantissa % scale == 0) = true := by
        simpa [Nat.dvd_iff_mod_eq_zero] using hdvd
      rw [if_neg hmod]
      refine ⟨fun h => absurd h (by simp), fun h => absurd ?_ hdvd⟩
      -- a whole value makes the mantissa a multiple of the scale
      have hmantissa : (b.mantissa : ℚ) = (if b.negative then -1 else 1) * n * scale := by
        rw [← h]
        cases b.negative <;> field_simp <;> simp
      have hint : (b.mantissa : Int) = (if b.negative then -1 else 1) * n * scale := by
        cases hb : b.negative <;> rw [hb] at hmantissa <;> simp at hmantissa ⊢ <;>
          exact_mod_cast hmantissa
      exact Int.natCast_dvd_natCast.mp ⟨_, hint.trans (Int.mul_comm _ _)⟩

theorem whole?_eq_some_iff {x : Float} {n : Int} : whole? x = some n ↔ IsWhole x n := by
  unfold whole? IsWhole
  cases Reading.ofFloat x with
  | nan => simp
  | infinite negative => simp
  | finite b => simp [Binary.whole?_eq_some_iff]

/-- The exponents that a unit can be raised to are the whole numbers of magnitude below `2 ^ 31`. -/
theorem wholeExponent?_eq_some_iff {x : Float} {n : Int} :
    wholeExponent? x = some n ↔ IsWhole x n ∧ n.natAbs ≤ 2147483647 := by
  rw [wholeExponent?, Option.filter_eq_some_iff, whole?_eq_some_iff, decide_eq_true_eq]
  rfl

/-! ## Dimensions -/

namespace Expr

/-- The value of a tree, units aside. -/
def value (b : Bindings) : Expr → Float
  | .number x => x
  | .symbol name =>
    match b.find? name with
    | some binding => binding.value
    | none => 0.0 / 0.0
  | .neg operand => -operand.value b
  | .binary op left right => op.apply (left.value b) (right.value b)

theorem measure_value (b : Bindings) (e : Expr) : (e.measure b).value = e.value b := by
  induction e with
  | number x => rfl
  | symbol name =>
      rw [measure, value]
      cases b.find? name <;> rfl
  | neg operand ih => rw [measure, value, ih]
  | binary op left right ihl ihr => rw [measure, value, ihl, ihr]

/-- The nodes of a tree, the tree itself first. -/
def nodes : Expr → List Expr
  | e@(.number _) => [e]
  | e@(.symbol _) => [e]
  | e@(.neg operand) => e :: operand.nodes
  | e@(.binary _ left right) => e :: (left.nodes ++ right.nodes)

/-- **The rules of dimensions.** A symbol has the unit that its variable is labelled with; a sum has
    the dimension of its left operand; exponents are added in products, subtracted in quotients and
    multiplied in powers. What is not a pure number can be raised to a whole number below `2 ^ 31`
    in magnitude only. -/
inductive Dimension (table : List Variable) (b : Bindings) : Expr → (String → Int) → Prop
  | number (x : Float) : Dimension table b (.number x) 0
  | symbol {name : String} {v : Variable} (carried : carrier? table name = some v) :
      Dimension table b (.symbol name) (CompoundUnit.parse v.unit).exponentOf
  | neg {operand : Expr} {d : String → Int} (inner : Dimension table b operand d) :
      Dimension table b (.neg operand) d
  | add {l r : Expr} {d : String → Int} (left : Dimension table b l d) :
      Dimension table b (.binary .add l r) d
  | sub {l r : Expr} {d : String → Int} (left : Dimension table b l d) :
      Dimension table b (.binary .sub l r) d
  | mul {l r : Expr} {d e : String → Int} (left : Dimension table b l d)
      (right : Dimension table b r e) : Dimension table b (.binary .mul l r) (d + e)
  | div {l r : Expr} {d e : String → Int} (left : Dimension table b l d)
      (right : Dimension table b r e) : Dimension table b (.binary .div l r) (d - e)
  | purePow {l r : Expr} (base : Dimension table b l 0) : Dimension table b (.binary .pow l r) 0
  | pow {l r : Expr} {d : String → Int} {n : Int} (base : Dimension table b l d) (unit : d ≠ 0)
      (whole : IsWhole (r.value b) n) (bounded : n.natAbs ≤ 2147483647) :
      Dimension table b (.binary .pow l r) fun name => n * d name

/-- **A tree has at most one dimension.** -/
theorem Dimension.unique {table : List Variable} {b : Bindings} {e : Expr} {d d' : String → Int}
    (h : Dimension table b e d) (h' : Dimension table b e d') : d = d' := by
  induction h generalizing d' with
  | number x =>
      cases h'
      rfl
  | symbol carried =>
      cases h' with
      | symbol carried' => rw [Option.some.inj (carried.symm.trans carried')]
  | neg inner ih =>
      cases h' with
      | neg inner' => exact ih inner'
  | add left ih =>
      cases h' with
      | add left' => exact ih left'
  | sub left ih =>
      cases h' with
      | sub left' => exact ih left'
  | mul left right ihl ihr =>
      cases h' with
      | mul left' right' => rw [ihl left', ihr right']
  | div left right ihl ihr =>
      cases h' with
      | div left' right' => rw [ihl left', ihr right']
  | purePow base ih =>
      cases h' with
      | purePow base' => rfl
      | pow base' unit' whole' bounded' => exact absurd (ih base').symm unit'
  | pow base unit whole bounded ih =>
      cases h' with
      | purePow base' => exact absurd (ih base') unit
      | pow base' unit' whole' bounded' => rw [ih base', whole.unique whole']

end Expr

/-! ## One operation -/

/-- Nothing was remarked on the exponents of units. -/
def Clean (remarks : List Diagnostic) : Prop := ∀ message, .invalidFormula message ∉ remarks

theorem clean_append {ds es : List Diagnostic} : Clean (ds ++ es) ↔ Clean ds ∧ Clean es := by
  simp only [Clean, List.mem_append, not_or, forall_and]

theorem clean_distinct {ds : List Diagnostic} : Clean (Diagnostic.distinct ds) ↔ Clean ds := by
  simp [Clean, Diagnostic.distinct, Diagnostic.mem_merge]

/-- Without a remark the unit is the one that was computed. -/
theorem eq_some_of_clean {base : CompoundUnit} {unit? : Option CompoundUnit}
    (h : Clean (orOverflow base unit?).2) : unit? = some (orOverflow base unit?).1 := by
  cases unit? with
  | none => exact absurd (List.mem_singleton.mpr rfl) (h _)
  | some u => rfl

open Reckoner.Expr (Dimension)

variable {table : List Variable} {b : Bindings} {l r : Expr} {u v : CompoundUnit}

theorem dimension_product (hu : u.Normal) (hv : v.Normal) (hl : Dimension table b l u.exponentOf)
    (hr : Dimension table b r v.exponentOf)
    (hclean : Clean (orOverflow u (CompoundUnit.combine .multiply u v)).2) :
    Dimension table b (.binary .mul l r)
        (orOverflow u (CompoundUnit.combine .multiply u v)).1.exponentOf ∧
      (orOverflow u (CompoundUnit.combine .multiply u v)).1.Normal := by
  have hunit := eq_some_of_clean hclean
  have hexponents : (orOverflow u (CompoundUnit.combine .multiply u v)).1.exponentOf =
      u.exponentOf + v.exponentOf := by
    funext name
    rw [CompoundUnit.exponentOf_combine hu hv hunit, Combination.sign, Int.one_mul]
    rfl
  exact ⟨hexponents ▸ .mul hl hr, CompoundUnit.normal_combine hu hv hunit⟩

theorem dimension_quotient (hu : u.Normal) (hv : v.Normal)
    (hl : Dimension table b l u.exponentOf) (hr : Dimension table b r v.exponentOf)
    (hclean : Clean (orOverflow u (CompoundUnit.combine .divide u v)).2) :
    Dimension table b (.binary .div l r)
        (orOverflow u (CompoundUnit.combine .divide u v)).1.exponentOf ∧
      (orOverflow u (CompoundUnit.combine .divide u v)).1.Normal := by
  have hunit := eq_some_of_clean hclean
  have hexponents : (orOverflow u (CompoundUnit.combine .divide u v)).1.exponentOf =
      u.exponentOf - v.exponentOf := by
    funext name
    rw [CompoundUnit.exponentOf_combine hu hv hunit, Combination.sign, Int.neg_one_mul]
    rfl
  exact ⟨hexponents ▸ .div hl hr, CompoundUnit.normal_combine hu hv hunit⟩

theorem dimension_power (hu : u.Normal) (hl : Dimension table b l u.exponentOf)
    (hclean : Clean (powerUnit u v (r.value b)).2) :
    Dimension table b (.binary .pow l r) (powerUnit u v (r.value b)).1.exponentOf ∧
      (powerUnit u v (r.value b)).1.Normal := by
  unfold powerUnit at hclean ⊢
  by_cases hpure : u.isDimensionless = true
  · -- a pure number stays one, whatever the exponent
    rw [hu.isDimensionless_iff.mp hpure] at hl
    simp only [if_pos hpure]
    exact ⟨.purePow hl, CompoundUnit.normal_dimensionless⟩
  · have hne : u.exponentOf ≠ 0 := fun h => hpure (hu.isDimensionless_iff.mpr h)
    simp only [if_neg hpure] at hclean ⊢
    cases hwhole : wholeExponent? (r.value b) with
    | none =>
        simp only [hwhole] at hclean
        exact absurd (List.mem_append_right _ (List.mem_singleton.mpr rfl)) (hclean _)
    | some n =>
        simp only [hwhole] at hclean ⊢
        obtain ⟨hn, hbounded⟩ := wholeExponent?_eq_some_iff.mp hwhole
        have hunit := eq_some_of_clean (clean_append.mp hclean).2
        obtain ⟨hnormal, hexponents⟩ := CompoundUnit.power_spec hu hunit
        have hscaled : (orOverflow u (u.power n)).1.exponentOf = fun name => n * u.exponentOf name :=
          funext fun name => (hexponents name).trans (Int.mul_comm _ _)
        exact ⟨hscaled ▸ .pow hl hne hn hbounded, hnormal⟩

/-- **One operation.** -/
theorem dimension_binary {op : BinaryOp} (hu : u.Normal) (hv : v.Normal)
    (hl : Dimension table b l u.exponentOf) (hr : Dimension table b r v.exponentOf)
    (hclean : Clean (op.unit u v (r.value b)).2) :
    Dimension table b (.binary op l r) (op.unit u v (r.value b)).1.exponentOf ∧
      (op.unit u v (r.value b)).1.Normal := by
  cases op with
  | add => exact ⟨.add hl, hu⟩
  | sub => exact ⟨.sub hl, hu⟩
  | mul => exact dimension_product hu hv hl hr hclean
  | div => exact dimension_quotient hu hv hl hr hclean
  | pow => exact dimension_power hu hl hclean

/-! ## Trees and formulas -/

/-- The units in the bindings are those that the variables of a table are labelled with. -/
def Labelled (table : List Variable) (b : Bindings) : Prop :=
  ∀ symbol, (b.find? symbol).map (·.unit) =
    (carrier? table symbol).map fun v => CompoundUnit.parse v.unit

theorem labelled_ofVariables (table : List Variable) : Labelled table (.ofVariables table) := by
  intro symbol
  rw [Bindings.find?_ofVariables, Option.map_map]
  rfl

/-- A new value changes no unit. -/
theorem Labelled.assign (h : Labelled table b) (v : Variable) (x : Float) :
    Labelled table (b.assign v x) := by
  intro symbol
  rw [← h symbol]
  by_cases howns : b.owns v = true
  · rw [Bindings.assign_of_owns howns, Bindings.find?_replace]
    split
    · rename_i hsymbol
      rw [hsymbol, Option.map_map]
      rfl
    · rfl
  · rw [Bindings.assign_of_not_owns howns]

/-- Bindings after attempts to give variables new values, one after the other. -/
def Bindings.assignAll (b : Bindings) (changes : List (Variable × Float)) : Bindings :=
  changes.foldl (fun b change => b.assign change.1 change.2) b

theorem Labelled.assignAll (h : Labelled table b) (changes : List (Variable × Float)) :
    Labelled table (b.assignAll changes) := by
  induction changes generalizing b with
  | nil => exact h
  | cons change changes ih => exact ih (h.assign change.1 change.2)

/-- **Every node.** If nothing is remarked on exponents, the unit of a tree is normal and its
    dimension; so are the units of all its nodes. -/
theorem measure_dimension (hb : Labelled table b) {e : Expr}
    (hbound : ∀ name ∈ e.mentions, b.contains name = true) (hclean : Clean (e.measure b).remarks) :
    (∀ n ∈ e.nodes, ∃ d, Dimension table b n d) ∧
      Dimension table b e (e.measure b).unit.exponentOf ∧ (e.measure b).unit.Normal := by
  induction e with
  | number x =>
      have hx : Dimension table b (.number x) 0 := .number x
      refine ⟨fun n hn => ?_, hx, CompoundUnit.normal_dimensionless⟩
      obtain rfl := List.mem_singleton.mp hn
      exact ⟨0, hx⟩
  | symbol name =>
      obtain ⟨binding, hbinding⟩ := Option.isSome_iff_exists.mp (hbound name List.mem_cons_self)
      have hunit := hb name
      rw [hbinding, Option.map_some] at hunit
      obtain ⟨v, hv, hparse⟩ := Option.map_eq_some_iff.mp hunit.symm
      have hsymbol : Dimension table b (.symbol name) binding.unit.exponentOf :=
        hparse ▸ .symbol hv
      refine ⟨fun n hn => ?_, ?_, ?_⟩
      · obtain rfl := List.mem_singleton.mp hn
        exact ⟨_, hsymbol⟩
      · simpa only [Expr.measure, hbinding] using hsymbol
      · simpa only [Expr.measure, hbinding, hparse] using CompoundUnit.normal_parse v.unit
  | neg operand ih =>
      obtain ⟨hnodes, hdimension, hnormal⟩ := ih hbound hclean
      refine ⟨fun n hn => ?_, .neg hdimension, hnormal⟩
      rcases List.mem_cons.mp hn with rfl | hn
      · exact ⟨_, .neg hdimension⟩
      · exact hnodes n hn
  | binary op left right ihl ihr =>
      simp only [Expr.mentions, List.mem_append] at hbound
      simp only [Expr.measure, clean_append, Expr.measure_value] at hclean
      obtain ⟨hnodesl, hleft, hnormall⟩ := ihl (fun name h => hbound name (.inl h)) hclean.1.1
      obtain ⟨hnodesr, hright, hnormalr⟩ := ihr (fun name h => hbound name (.inr h)) hclean.1.2
      have hroot := dimension_binary hnormall hnormalr hleft hright hclean.2
      simp only [Expr.measure, Expr.measure_value]
      refine ⟨fun n hn => ?_, hroot⟩
      rw [Expr.nodes, List.mem_cons, List.mem_append] at hn
      rcases hn with rfl | hn | hn
      · exact ⟨_, hroot.1⟩
      · exact hnodesl n hn
      · exact hnodesr n hn

/-- The symbols of a tree are the names it mentions, without repeats. -/
theorem Expr.symbols_eq_eraseDups (e : Expr) : e.symbols = e.mentions.eraseDups := by
  rw [Expr.symbols, foldl_insert_eq_append, List.filter_eq_self.mpr (by simp), List.nil_append]

theorem Expr.mem_symbols {e : Expr} {name : String} : name ∈ e.symbols ↔ name ∈ e.mentions := by
  rw [Expr.symbols_eq_eraseDups, List.mem_eraseDups]

/-- A formula that evaluates mentions bound symbols only. -/
theorem Formula.evaluate_eq_ok {f : Formula} {m : Measure} (h : f.evaluate b = .ok m) :
    (∀ name ∈ f.tree.mentions, b.contains name = true) ∧
      m = { f.tree.measure b with
        remarks := Diagnostic.distinct (f.tree.measure b).remarks } := by
  unfold Formula.evaluate at h
  split at h
  · exact absurd h (by simp)
  · rename_i hmissing
    dsimp only at h
    split at h
    · refine ⟨fun name hname => ?_, (Except.ok.inj h).symm⟩
      have hsymbol : name ∈ f.symbols := Expr.mem_symbols.mpr hname
      simpa using List.filter_eq_nil_iff.mp hmissing name hsymbol
    · exact absurd h (by simp)

/-- **The unit of a formula is its dimension.** Whenever a formula evaluates, whatever values its
    variables were given in the meantime, and nothing is remarked on exponents, every node of its
    tree has one dimension; the unit has the exponents of the root's, names every factor once, and
    has no factor with the exponent 0. -/
theorem evaluate_dimension (f : Formula) (table : List Variable)
    (changes : List (Variable × Float)) (m : Measure)
    (h : f.evaluate ((Bindings.ofVariables table).assignAll changes) = .ok m)
    (hclean : ∀ message, .invalidFormula message ∉ m.remarks) :
    let b := (Bindings.ofVariables table).assignAll changes
    (∀ e ∈ f.tree.nodes, ∃! d, Dimension table b e d) ∧
      (∃ d, Dimension table b f.tree d ∧ ∀ name, m.unit.exponentOf name = d name) ∧
      (m.unit.factors.map Factor.name).Nodup ∧ ∀ f ∈ m.unit.factors, f.exponent.val ≠ 0 := by
  intro b
  obtain ⟨hbound, hm⟩ := Formula.evaluate_eq_ok h
  subst hm
  have hlabelled : Labelled table b := (labelled_ofVariables table).assignAll changes
  obtain ⟨hnodes, hroot, hnormal⟩ := measure_dimension hlabelled hbound (clean_distinct.mp hclean)
  refine ⟨fun e he => ?_, ⟨_, hroot, fun _ => rfl⟩, hnormal⟩
  obtain ⟨d, hd⟩ := hnodes e he
  exact ⟨d, hd, fun d' hd' => hd'.unique hd⟩

/-- A distance and a time that is not known yet. -/
def journey : List Variable :=
  [{ id := "d", symbol := "d", value := 6.0, unit := "m" },
    { id := "t", symbol := " t ", value := 0.0, unit := "s" }]

/-- How fast the distance is covered the other way. -/
def backwards : Formula := ⟨.binary .div (.neg (.symbol "d")) (.symbol "t")⟩

/-- The time becomes known. -/
def arrival : List (Variable × Float) :=
  [({ id := "t", symbol := "t", value := 0.0 }, 3.0)]

theorem backwards_dimension :
    ∃ m d, backwards.evaluate ((Bindings.ofVariables journey).assignAll arrival) = .ok m ∧
      (∀ message, .invalidFormula message ∉ m.remarks) ∧
      Dimension journey ((Bindings.ofVariables journey).assignAll arrival) backwards.tree d ∧
      d "m" = 1 ∧ d "s" = -1 := by
  have hresult : (backwards.evaluate ((Bindings.ofVariables journey).assignAll arrival)).toOption.map
      (fun m => (m.remarks, m.unit.exponentOf "m", m.unit.exponentOf "s")) = some ([], 1, -1) := by
    decide +kernel
  cases hm : backwards.evaluate ((Bindings.ofVariables journey).assignAll arrival) with
  | error failure =>
      rw [hm] at hresult
      exact absurd hresult (by simp [Except.toOption])
  | ok m =>
      rw [hm] at hresult
      simp only [Except.toOption, Option.map_some, Option.some.injEq, Prod.mk.injEq] at hresult
      obtain ⟨hremarks, hmetre, hsecond⟩ := hresult
      have hclean : ∀ message, .invalidFormula message ∉ m.remarks := by simp [hremarks]
      obtain ⟨-, ⟨d, hd, hexponents⟩, -⟩ :=
        evaluate_dimension backwards journey arrival m hm hclean
      exact ⟨m, d, rfl, hclean, hd, (hexponents "m").symm.trans hmetre,
        (hexponents "s").symm.trans hsecond⟩

end Reckoner
