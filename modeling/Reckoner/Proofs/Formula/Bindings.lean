import Reckoner.Formula.Basic

/-!
# `Reckoner.Proofs.Formula.Bindings` — bindings are what they answer

A formula sees its bindings only through look-ups, so bindings with the same look-ups give the same
answers (`answer_congr`). The look-ups themselves are those of the table: the first variable that
carries the symbol.

## Contents
- **Look-ups.** `find?` after `add`, `ofVariables`, `replace` and `assign`.
- **Answers.** Evaluation depends on look-ups only.
-/

namespace Reckoner

/-- What a variable's symbol stands for. -/
def Variable.binding (v : Variable) : Binding := ⟨v.value, CompoundUnit.parse v.unit, v.id⟩

/-- The first variable that carries a symbol. -/
def carrier? (table : List Variable) (symbol : String) : Option Variable :=
  table.find? fun v => v.key == symbol

theorem carrier?_cons (v : Variable) (vs : List Variable) (symbol : String) :
    carrier? (v :: vs) symbol = if v.key = symbol then some v else carrier? vs symbol := by
  by_cases hv : v.key = symbol <;> simp [carrier?, hv]

theorem carrier?_append (before behind : List Variable) (symbol : String) :
    carrier? (before ++ behind) symbol = (carrier? before symbol).or (carrier? behind symbol) :=
  List.find?_append

theorem carrier?_eq_none {table : List Variable} {symbol : String} :
    carrier? table symbol = none ↔ ∀ v ∈ table, v.key ≠ symbol := by
  simp [carrier?]

namespace Bindings

/-! ## Look-ups -/

theorem find?_add (b : Bindings) (v : Variable) (symbol : String) :
    (b.add v).find? symbol =
      (b.find? symbol).or (if v.key = symbol then some v.binding else none) := by
  unfold add
  split
  · rename_i hbound
    by_cases hv : v.key = symbol
    · subst hv
      obtain ⟨binding, hb⟩ := Option.isSome_iff_exists.mp hbound
      rw [hb]
      rfl
    · simp [hv]
  · simp only [find?, List.lookup_append, List.lookup_cons, List.lookup_nil]
    by_cases hv : v.key = symbol
    · subst hv; simp [Variable.binding]
    · have hne : (symbol == v.key) = false := by simpa using Ne.symm hv
      simp [hv, hne]

/-- Variables that are added later are seen only behind the earlier ones. -/
theorem find?_foldl_add (table : List Variable) (b : Bindings) (symbol : String) :
    (table.foldl add b).find? symbol =
      (b.find? symbol).or ((carrier? table symbol).map Variable.binding) := by
  induction table generalizing b with
  | nil => simp [carrier?]
  | cons v vs ih =>
      rw [List.foldl_cons, ih, find?_add, carrier?_cons]
      by_cases hv : v.key = symbol
      · cases b.find? symbol <;> simp [hv]
      · simp [hv]

/-- **A symbol stands for the first variable that carries it.** -/
theorem find?_ofVariables (table : List Variable) (symbol : String) :
    (ofVariables table).find? symbol = (carrier? table symbol).map Variable.binding := by
  rw [ofVariables, find?_foldl_add]
  rfl

theorem find?_replace (b : Bindings) (symbol other : String) (value : Float) :
    (b.replace symbol value).find? other =
      if other = symbol then (b.find? symbol).map fun binding => { binding with value := value }
      else b.find? other := by
  obtain ⟨entries⟩ := b
  simp only [replace, find?]
  induction entries with
  | nil => split <;> rfl
  | cons entry entries ih =>
      obtain ⟨name, binding⟩ := entry
      by_cases hname : name = symbol
      · subst hname
        by_cases hother : other = name
        · subst hother
          simp
        · have hne : (other == name) = false := by simpa using hother
          simp only [if_neg hother] at ih
          simp only [List.map_cons, List.lookup_cons, beq_self_eq_true, if_true, hne, if_neg hother,
            ih]
      · have hkept : (name == symbol) = false := by simpa using hname
        have hskip : (symbol == name) = false := by simpa using Ne.symm hname
        simp only [List.map_cons, List.lookup_cons, hkept, hskip, Bool.false_eq_true, if_false, ih]
        cases hother : other == name with
        | true =>
            have hne : ¬other = symbol := eq_of_beq hother ▸ hname
            simp [hne]
        | false => rfl

/-- A variable owns its symbol when the look-up of the symbol names it. -/
theorem owns_iff (b : Bindings) (v : Variable) :
    b.owns v = true ↔ ∃ binding, b.find? v.key = some binding ∧ binding.owner = v.id := by
  unfold owns
  cases b.find? v.key <;> simp

/-- Owners do not change with values. -/
theorem owns_replace (b : Bindings) (symbol : String) (value : Float) (v : Variable) :
    (b.replace symbol value).owns v = b.owns v := by
  simp only [owns, find?_replace]
  by_cases hv : v.key = symbol
  · subst hv
    rw [if_pos rfl]
    cases b.find? v.key <;> rfl
  · rw [if_neg hv]

/-- In the bindings of a table a variable owns its symbol when the first carrier has its id. -/
theorem owns_ofVariables (table : List Variable) (v : Variable) :
    (ofVariables table).owns v = true ↔ ∃ w, carrier? table v.key = some w ∧ w.id = v.id := by
  rw [owns_iff, find?_ofVariables]
  constructor
  · rintro ⟨binding, hb, howner⟩
    obtain ⟨w, hw, rfl⟩ := Option.map_eq_some_iff.mp hb
    exact ⟨w, hw, howner⟩
  · rintro ⟨w, hw, hid⟩
    exact ⟨w.binding, by rw [hw]; rfl, hid⟩

/-- Setting a value succeeds for owners, and is then what `assign` does. -/
theorem setValue?_eq (b : Bindings) (v : Variable) (value : Float) :
    b.setValue? v value = if b.owns v then some (b.assign v value) else none := by
  unfold assign setValue?
  split <;> rfl

theorem assign_of_owns {b : Bindings} {v : Variable} (h : b.owns v = true) (value : Float) :
    b.assign v value = b.replace v.key value := by
  simp [assign, setValue?, h]

theorem assign_of_not_owns {b : Bindings} {v : Variable} (h : ¬b.owns v = true) (value : Float) :
    b.assign v value = b := by
  simp [assign, setValue?, h]

/-- Owners do not change, whether a value is accepted or refused. -/
theorem owns_assign (b : Bindings) (v : Variable) (x : Float) : (b.assign v x).owns = b.owns := by
  funext w
  by_cases hv : b.owns v = true
  · rw [assign_of_owns hv, owns_replace]
  · rw [assign_of_not_owns hv]

/-- What a symbol stands for after one call. -/
theorem find?_assign (b : Bindings) (v : Variable) (x : Float) (symbol : String) :
    (b.assign v x).find? symbol =
      if b.owns v = true ∧ symbol = v.key then
        (b.find? symbol).map fun binding => { binding with value := x }
      else b.find? symbol := by
  by_cases hv : b.owns v = true
  · rw [assign_of_owns hv, find?_replace]
    by_cases hsymbol : symbol = v.key
    · rw [if_pos hsymbol, if_pos ⟨hv, hsymbol⟩, hsymbol]
    · rw [if_neg hsymbol, if_neg fun h => hsymbol h.2]
  · rw [assign_of_not_owns hv, if_neg fun h => hv h.1]

/-! ## Answers -/

/-- The bindings have the same look-ups. -/
def Agree (b b' : Bindings) : Prop := ∀ symbol, b.find? symbol = b'.find? symbol

theorem Agree.refl (b : Bindings) : Agree b b := fun _ => rfl

theorem Agree.trans {b b' b'' : Bindings} (h : Agree b b') (h' : Agree b' b'') : Agree b b'' :=
  fun symbol => (h symbol).trans (h' symbol)

theorem Agree.owns {b b' : Bindings} (h : Agree b b') (v : Variable) : b.owns v = b'.owns v := by
  simp only [Bindings.owns, h v.key]

theorem Agree.assign {b b' : Bindings} (h : Agree b b') (v : Variable) (value : Float) :
    Agree (b.assign v value) (b'.assign v value) := by
  intro symbol
  rw [find?_assign, find?_assign, h.owns v, h symbol]

/-- A value that is overwritten leaves no trace. -/
theorem assign_assign (b : Bindings) (v : Variable) (x y : Float) :
    Agree ((b.assign v x).assign v y) (b.assign v y) := by
  intro symbol
  simp only [find?_assign, owns_assign]
  split
  · cases b.find? symbol <;> rfl
  · rfl

/-- **One value.** Giving a variable a value in the bindings looks up what the bindings of the
    changed table do, when no earlier variable has its id: an owner is changed in both, a shadowed
    variable is seen in neither. -/
theorem agree_assign_append {before behind : List Variable} {v : Variable}
    (hbefore : ∀ w ∈ before, w.id ≠ v.id) (x : Float) :
    Agree ((ofVariables (before ++ v :: behind)).assign v x)
      (ofVariables (before ++ { v with value := x } :: behind)) := by
  have hkey : ({ v with value := x } : Variable).key = v.key := rfl
  cases hc : carrier? before v.key with
  | none =>
      -- nothing hides the variable: both sides show the new value
      have howns : (ofVariables (before ++ v :: behind)).owns v = true := by
        rw [owns_ofVariables]
        exact ⟨v, by simp [carrier?_append, carrier?_cons, hc], rfl⟩
      intro symbol
      rw [assign_of_owns howns, find?_replace]
      simp only [find?_ofVariables, carrier?_append, carrier?_cons, hkey]
      by_cases hsymbol : symbol = v.key
      · subst hsymbol
        simp [hc, Variable.binding]
      · simp [hsymbol, Ne.symm hsymbol]
  | some w =>
      -- an earlier carrier has another id, so nothing is overwritten, and it hides the value anyway
      have howns : ¬(ofVariables (before ++ v :: behind)).owns v = true := by
        rw [owns_ofVariables]
        rintro ⟨u, hu, hid⟩
        rw [carrier?_append, hc, Option.some_or] at hu
        obtain rfl := Option.some.inj hu
        exact hbefore w (List.mem_of_find?_eq_some hc) hid
      intro symbol
      rw [assign_of_not_owns howns]
      simp only [find?_ofVariables, carrier?_append, carrier?_cons, hkey]
      by_cases hsymbol : v.key = symbol
      · subst hsymbol
        simp [hc]
      · simp [hsymbol]

end Bindings

open Bindings (Agree)

/-- A result that contains something is not an error. -/
theorem exists_ok_of_map {ε α β : Type} {result : Except ε α} {part : α → β} {x : β}
    (h : result.toOption.map part = some x) : ∃ a, result = .ok a ∧ part a = x := by
  cases result with
  | ok a => exact ⟨a, rfl, Option.some.inj h⟩
  | error e => cases h

theorem exists_error_of_isNone {ε α : Type} {result : Except ε α}
    (h : result.toOption.isNone = true) : ∃ e, result = .error e := by
  cases result with
  | ok a => cases h
  | error e => exact ⟨e, rfl⟩

theorem Expr.measure_congr {b b' : Bindings} (h : Agree b b') (e : Expr) :
    e.measure b = e.measure b' := by
  induction e with
  | number value => rfl
  | symbol name => simp only [Expr.measure, h name]
  | neg operand ih => simp only [Expr.measure, ih]
  | binary op left right ihl ihr => simp only [Expr.measure, ihl, ihr]

theorem Formula.evaluate_congr {b b' : Bindings} (h : Agree b b') (f : Formula) :
    f.evaluate b = f.evaluate b' := by
  have hcontains : b.contains = b'.contains := funext fun name => by
    simp only [Bindings.contains, h name]
  simp only [Formula.evaluate, hcontains, Expr.measure_congr h]

/-- **Bindings with the same look-ups give the same answers.** -/
theorem Formula.answer_congr {b b' : Bindings} (h : Agree b b') (f : Formula)
    (expected : Option String) : f.answer b expected = f.answer b' expected := by
  simp only [Formula.answer, f.evaluate_congr h]

theorem evaluate_of_ok {source : String} {f : Formula} (hf : Formula.compile source = .ok f)
    (table : List Variable) (expected : Option String) :
    evaluate source table expected = f.answer (.ofVariables table) expected := by
  rw [evaluate, hf]

theorem evaluate_of_error {source : String} {e : FormulaError}
    (he : Formula.compile source = .error e) (table : List Variable) (expected : Option String) :
    evaluate source table expected = .failure e.message e.diagnostics := by
  rw [evaluate, he]

end Reckoner
