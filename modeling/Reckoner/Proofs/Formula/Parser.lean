import Reckoner.Proofs.Formula.Grammar
import Reckoner.Proofs.Formula.Readers

/-!
# `Reckoner.Proofs.Formula.Parser` — the parser accepts exactly the grammar

The grammar is recursive on the left, the parser reads from left to right, and the two meet in what
may stand behind a formula: `Follows c ts` says that the tokens `ts` do not go on with a formula of
category `c`, `Stops loosest ts` that a chain ends there.

## Contents
- **Boundaries.** `Follows`, `Stops` and the category that `read` looks for.
- **Completeness.** `IsReadAs`, kept by every production: reading a derivable formula gets through
  it and goes on with the chain behind it, or reports that it is too deep.
- **Soundness.** `LevelSound`: what was read is derivable, and the chain ended where it had to.
- **The parser.** Both directions, the two bounds, and uniqueness in one statement.
-/

namespace Reckoner.Formula

variable {tallest levels loosest : Nat}

/-! ## Boundaries -/

/-- The operator at the front. -/
def headOperator? (ts : List Placed) : Option BinaryOp :=
  ts.head?.bind fun t => operator? t.token

/-- The tokens do not go on with a formula of the category. -/
def Follows (c : Category) (ts : List Placed) : Prop :=
  ∀ op, headOperator? ts = some op → op.precedence ≤ c.tightness

/-- A chain of operators that bind at least as tightly as `loosest` ends here. -/
def Stops (loosest : Nat) (ts : List Placed) : Prop :=
  ∀ op, headOperator? ts = some op → op.precedence < loosest

/-- The category of the formulas that are read when only operators that bind at least as tightly as
    `loosest` are taken. -/
def Category.ofLoosest (loosest : Nat) : Category :=
  if loosest ≤ 10 then .sum else if loosest ≤ 20 then .product else .signed

theorem headOperator?_cons (t : Placed) (ts : List Placed) :
    headOperator? (t :: ts) = operator? t.token := rfl

theorem Category.le_ten_of_sum (h : (ofLoosest loosest).tightness ≤ tightness .sum) :
    loosest ≤ 10 := by
  unfold ofLoosest at h
  split at h
  · assumption
  · split at h <;> exact absurd h (by decide)

theorem Category.le_twenty_of_product (h : (ofLoosest loosest).tightness ≤ tightness .product) :
    loosest ≤ 20 := by
  unfold ofLoosest at h
  split at h
  · omega
  · split at h
    · assumption
    · exact absurd h (by decide)

/-- A tighter category is followed by more. -/
theorem Follows.widen {c c' : Category} {ts : List Placed} (h : Follows c ts)
    (hc : c.tightness ≤ c'.tightness) : Follows c' ts :=
  fun op hop => Nat.le_trans (h op hop) hc

/-- No operator binds more tightly than signs and less tightly than powers. -/
theorem Follows.signed {ts : List Placed} (h : Follows .power ts) : Follows .signed ts := by
  intro op hop
  have hle := h op hop
  cases op <;> first | exact absurd hle (by decide) | decide

theorem Follows.stops {c : Category} {ts : List Placed} (h : Follows c ts)
    (hc : c.tightness < loosest) : Stops loosest ts :=
  fun op hop => Nat.lt_of_le_of_lt (h op hop) hc

/-- A token that is no operator is the end of every formula. -/
theorem follows_of_operator?_eq_none {c : Category} {t : Placed} {ts : List Placed}
    (h : operator? t.token = none) : Follows c (t :: ts) := by
  intro op hop
  rw [headOperator?_cons, h] at hop
  exact absurd hop (by simp)

theorem stops_of_operator?_eq_none {t : Placed} {ts : List Placed} (h : operator? t.token = none) :
    Stops loosest (t :: ts) := by
  intro op hop
  rw [headOperator?_cons, h] at hop
  exact absurd hop (by simp)

theorem follows_of_operator? {c : Category} {t : Placed} {ts : List Placed} {op : BinaryOp}
    (h : operator? t.token = some op) (hop : op.precedence ≤ c.tightness) :
    Follows c (t :: ts) := by
  intro op' hop'
  rw [headOperator?_cons, h] at hop'
  obtain rfl := Option.some.inj hop'
  exact hop

theorem readChain_stop {left : Expr} {height : Nat} {ts : List Placed} (h : Stops loosest ts) :
    readChain tallest levels loosest left height ts = .ok (left, height, ts) := by
  cases ts with
  | nil => exact readChain_nil left height
  | cons t ts =>
      rw [readChain_cons]
      cases ht : operator? t.token with
      | none => rfl
      | some op => exact if_pos (h op ht)

theorem readChain_operator {left : Expr} {height : Nat} {t : Placed} {ts : List Placed}
    {op : BinaryOp} (ht : operator? t.token = some op) (hop : loosest ≤ op.precedence) :
    readChain tallest levels loosest left height (t :: ts) =
      (read tallest levels op.rightPrecedence ts).bind fun right =>
        (grow tallest (max height right.2.1)).bind fun taller =>
          readChain tallest levels loosest (.binary op left right.1) taller right.2.2 := by
  rw [readChain_cons, ht]
  exact if_neg (Nat.not_lt.mpr hop)

/-! ## Completeness -/

/-- A result, unless one of the two bounds is exceeded. -/
def withinBounds (levels tallest depth height : Nat) (r : Except FormulaError Reading) :
    Except FormulaError Reading :=
  if depth ≤ levels ∧ height ≤ tallest then r else .error .tooDeep

theorem withinBounds_of_le {depth height : Nat} {r : Except FormulaError Reading}
    (hd : depth ≤ levels) (hh : height ≤ tallest) :
    withinBounds levels tallest depth height r = r := if_pos ⟨hd, hh⟩

theorem withinBounds_of_lt {depth height : Nat} {r : Except FormulaError Reading}
    (h : levels < depth ∨ tallest < height) :
    withinBounds levels tallest depth height r = .error .tooDeep := if_neg (by omega)

theorem grow_of_lt {height : Nat} (h : height < tallest) :
    grow tallest height = .ok (height + 1) := if_neg (by omega)

theorem grow_of_le {height : Nat} (h : tallest ≤ height) :
    grow tallest height = .error .tooDeep := if_pos (by omega)

/-- Reading gets through a formula and goes on behind it, unless the formula is too deep. -/
def ReadsThrough (tallest levels loosest : Nat) (us : List Placed) (e : Expr) (d : Nat)
    (ws : List Placed) : Prop :=
  read tallest (levels + 1) loosest (us ++ ws) =
    withinBounds (levels + 1) tallest d e.height (readChain tallest levels loosest e e.height ws)

/-- Reading stops behind a formula, unless the formula is too deep. -/
def ReadsExactly (tallest levels loosest : Nat) (us : List Placed) (e : Expr) (d : Nat)
    (ws : List Placed) : Prop :=
  read tallest levels loosest (us ++ ws) =
    withinBounds levels tallest d e.height (.ok (e, e.height, ws))

/-- A formula that is read through and followed by the end of its chain is read exactly. -/
theorem readsExactly_of_stops {us ws : List Placed} {e : Expr} {d : Nat} (hd : 0 < d)
    (h : ∀ levels, ReadsThrough tallest levels loosest us e d ws) (hs : Stops loosest ws) :
    ReadsExactly tallest levels loosest us e d ws := by
  cases levels with
  | zero =>
      show read tallest 0 loosest (us ++ ws) = _
      rw [read_zero, withinBounds_of_lt (.inl hd)]
  | succ levels =>
      have hread := h levels
      unfold ReadsThrough at hread
      rw [ReadsExactly, hread, readChain_stop hs]

/-- An operator between two formulas is read through with them. -/
theorem readsThrough_binary {us vs ws : List Placed} {t : Placed} {op : BinaryOp} {l r : Expr}
    {d d' : Nat} (ht : operator? t.token = some op) (hop : loosest ≤ op.precedence)
    (hl : ReadsThrough tallest levels loosest us l d (t :: (vs ++ ws)))
    (hr : ReadsExactly tallest levels op.rightPrecedence vs r d' ws) :
    ReadsThrough tallest levels loosest (us ++ t :: vs) (.binary op l r) (max d (d' + 1)) ws := by
  have hheight : (Expr.binary op l r).height = max l.height r.height + 1 := rfl
  unfold ReadsThrough ReadsExactly at *
  rw [List.append_assoc, List.cons_append, hl, readChain_operator ht hop, hr, hheight]
  by_cases hleft : d ≤ levels + 1 ∧ l.height ≤ tallest
  · rw [withinBounds_of_le hleft.1 hleft.2]
    by_cases hright : d' ≤ levels ∧ r.height ≤ tallest
    · rw [withinBounds_of_le hright.1 hright.2]
      show (grow tallest (max l.height r.height)).bind _ = _
      rcases Nat.lt_or_ge (max l.height r.height) tallest with htall | htall
      · rw [grow_of_lt htall, withinBounds_of_le (by omega) htall]
        rfl
      · rw [grow_of_le htall, withinBounds_of_lt (.inr (Nat.lt_succ_of_le htall))]
        rfl
    · rw [withinBounds_of_lt (by omega), withinBounds_of_lt (by omega)]
      rfl
  · rw [withinBounds_of_lt (by omega), withinBounds_of_lt (by omega)]

/-- A formula that is an operand is read through. -/
theorem readsThrough_operand {us ws : List Placed} {e : Expr} {d : Nat}
    (h : readOperand tallest levels (us ++ ws) =
      withinBounds (levels + 1) tallest d e.height (.ok (e, e.height, ws))) :
    ReadsThrough tallest levels loosest us e d ws := by
  rw [ReadsThrough, read_succ, h]
  by_cases hb : d ≤ levels + 1 ∧ e.height ≤ tallest
  · rw [withinBounds_of_le hb.1 hb.2, withinBounds_of_le hb.1 hb.2]
    rfl
  · rw [withinBounds_of_lt (by omega), withinBounds_of_lt (by omega)]
    rfl

/-- A leaf is read through. -/
theorem readsThrough_leaf {t : Placed} {ws : List Placed} {e : Expr} (htall : 0 < tallest)
    (he : e.height = 1) (h : readOperand tallest levels (t :: ws) = .ok (e, 1, ws)) :
    ReadsThrough tallest levels loosest [t] e 1 ws := by
  apply readsThrough_operand
  rw [List.singleton_append, h, he, withinBounds_of_le (Nat.succ_pos levels) htall]

/-- What is made of an enclosed formula is as deep as one more level allows. -/
theorem withinBounds_bind {d height height' : Nat} {r r' : Reading}
    {f : Reading → Except FormulaError Reading} (hheight : height ≤ height')
    (hok : height' ≤ tallest → f r = .ok r')
    (hdeep : height ≤ tallest → tallest < height' → f r = .error .tooDeep) :
    (withinBounds levels tallest d height (.ok r)).bind f =
      withinBounds (levels + 1) tallest (d + 1) height' (.ok r') := by
  by_cases hb : d ≤ levels ∧ height ≤ tallest
  · rw [withinBounds_of_le hb.1 hb.2]
    show f r = _
    rcases Nat.lt_or_ge tallest height' with htall | htall
    · rw [hdeep hb.2 htall, withinBounds_of_lt (.inr htall)]
    · rw [hok htall, withinBounds_of_le (by omega) htall]
  · rw [withinBounds_of_lt (by omega), withinBounds_of_lt (by omega)]
    rfl

theorem SumSign.operator {t : Token} {op : BinaryOp} (h : SumSign t op) :
    operator? t = some op ∧ op.precedence = 10 ∧ op.rightPrecedence = 11 := by
  cases h <;> exact ⟨rfl, rfl, rfl⟩

theorem ProductSign.operator {t : Token} {op : BinaryOp} (h : ProductSign t op) :
    operator? t = some op ∧ op.precedence = 20 ∧ op.rightPrecedence = 21 := by
  cases h <;> exact ⟨rfl, rfl, rfl⟩

/-- The tokens are read through as a formula of a category, whatever stands behind them without going
    on with the formula, and in every chain that takes formulas of that category. -/
def IsReadAs (tallest : Nat) (c : Category) (u : List Token) (e : Expr) (d : Nat) : Prop :=
  ∀ {loosest : Nat} {us ws : List Placed}, us.map Placed.token = u → Follows c ws →
    (Category.ofLoosest loosest).tightness ≤ c.tightness → loosest ≤ BinaryOp.pow.precedence →
    ∀ levels, ReadsThrough tallest levels loosest us e d ws

namespace IsReadAs

variable {c c' : Category} {u v : List Token} {e l r : Expr} {d d' : Nat}

/-- What is read as a tight formula is read as a looser one. -/
theorem widen (h : IsReadAs tallest c u e d) (hc : c'.tightness ≤ c.tightness) :
    IsReadAs tallest c' u e d := by
  intro loosest us ws hus hf hl
  exact h hus (hf.widen hc) (Nat.le_trans hl hc)

/-- A token that is an operand by itself. -/
theorem leaf {token : Token} (htall : 0 < tallest) (he : e.height = 1)
    (h : ∀ (levels : Nat) (t : Placed) (ws : List Placed), t.token = token →
      readOperand tallest levels (t :: ws) = .ok (e, 1, ws)) :
    IsReadAs tallest c [token] e 1 := by
  intro loosest us ws hus _ _ _ levels
  obtain ⟨t, us, rfl, ht, hnil⟩ := List.map_eq_cons_iff.mp hus
  obtain rfl := List.map_eq_nil_iff.mp hnil
  exact readsThrough_leaf htall he (h levels t ws ht)

/-- A formula in parentheses: the closing one ends every chain inside. -/
theorem parens (hd : 0 < d) (h : IsReadAs tallest .sum u e d) :
    IsReadAs tallest .atom (.openParen :: (u ++ [.closeParen])) e (d + 1) := by
  intro loosest us ws hus _ _ _ levels
  obtain ⟨opening, us, rfl, ho, hus⟩ := List.map_eq_cons_iff.mp hus
  obtain ⟨us, vs, rfl, hu, hvs⟩ := List.map_eq_append_iff.mp hus
  obtain ⟨closing, vs, rfl, hc, hnil⟩ := List.map_eq_cons_iff.mp hvs
  obtain rfl := List.map_eq_nil_iff.mp hnil
  have hend : operator? closing.token = none := by rw [hc]; rfl
  have hinner : ReadsExactly tallest levels 0 us e d (closing :: ws) :=
    readsExactly_of_stops hd (h hu (follows_of_operator?_eq_none hend) (by decide) (by decide))
      (stops_of_operator?_eq_none hend)
  apply readsThrough_operand
  rw [List.cons_append, List.append_assoc, List.singleton_append, readOperand_cons, ho]
  show (read tallest levels 0 (us ++ closing :: ws)).bind closed = _
  rw [hinner]
  exact withinBounds_bind (Nat.le_refl _) (fun _ => by simp [closed, hc])
    (fun hle hlt => absurd hlt (Nat.not_lt.mpr hle))

/-- The operand of a sign ends where the signed formula does: only powers bind more tightly. -/
theorem readsExactly_operand {us ws : List Placed} (hd : 0 < d) (h : IsReadAs tallest .signed u e d)
    (hu : us.map Placed.token = u) (hf : Follows .signed ws) (levels : Nat) :
    ReadsExactly tallest levels signPrecedence us e d ws :=
  readsExactly_of_stops hd (h hu hf (by decide) (by decide)) (hf.stops (by decide))

theorem minus (hd : 0 < d) (h : IsReadAs tallest .signed u e d) :
    IsReadAs tallest .signed (.minus :: u) (.neg e) (d + 1) := by
  intro loosest us ws hus hf _ _ levels
  obtain ⟨t, us, rfl, ht, hu⟩ := List.map_eq_cons_iff.mp hus
  have hinner := h.readsExactly_operand hd hu hf levels
  apply readsThrough_operand
  rw [List.cons_append, readOperand_cons, ht]
  show (read tallest levels signPrecedence (us ++ ws)).bind (negated tallest) = _
  rw [hinner]
  -- the sign is one more node as well as one more level
  refine withinBounds_bind (Nat.le_succ _) (fun hle => ?_) (fun _ hlt => ?_)
  · rw [negated, grow_of_lt hle]; rfl
  · rw [negated, grow_of_le (Nat.le_of_lt_succ hlt)]; rfl

theorem plus (hd : 0 < d) (h : IsReadAs tallest .signed u e d) :
    IsReadAs tallest .signed (.plus :: u) e (d + 1) := by
  intro loosest us ws hus hf _ _ levels
  obtain ⟨t, us, rfl, ht, hu⟩ := List.map_eq_cons_iff.mp hus
  have hinner := h.readsExactly_operand hd hu hf levels
  apply readsThrough_operand
  rw [List.cons_append, readOperand_cons, ht]
  show read tallest levels signPrecedence (us ++ ws) = _
  rw [hinner]
  -- no node, so that only the nesting depth counts the sign
  simp only [withinBounds, Nat.add_le_add_iff_right]

/-- An operator between two formulas, as a formula of a third category. The operator does not go on
    with the left one, and what stands behind the right one ends the chain in it. -/
theorem binary {cl cr : Category} {token : Token} {op : BinaryOp}
    (hl : IsReadAs tallest cl u l d) (hd' : 0 < d') (hr : IsReadAs tallest cr v r d')
    (hop : operator? token = some op)
    (hleft : c.tightness ≤ cl.tightness ∧ op.precedence ≤ cl.tightness)
    (htaken : ∀ loosest, (Category.ofLoosest loosest).tightness ≤ c.tightness →
      loosest ≤ BinaryOp.pow.precedence → loosest ≤ op.precedence)
    (hright : (Category.ofLoosest op.rightPrecedence).tightness ≤ cr.tightness ∧
      op.rightPrecedence ≤ BinaryOp.pow.precedence)
    (hbehind : ∀ ws, Follows c ws → Follows cr ws ∧ Stops op.rightPrecedence ws) :
    IsReadAs tallest c (u ++ token :: v) (.binary op l r) (max d (d' + 1)) := by
  intro loosest us ws hus hf hloosest hpow levels
  obtain ⟨us, vs, rfl, hu, hvs⟩ := List.map_eq_append_iff.mp hus
  obtain ⟨t, vs, rfl, rfl, hv⟩ := List.map_eq_cons_iff.mp hvs
  obtain ⟨hfollows, hstops⟩ := hbehind ws hf
  refine readsThrough_binary hop (htaken loosest hloosest hpow) ?_ ?_
  · exact hl hu (follows_of_operator? hop hleft.2) (Nat.le_trans hloosest hleft.1) hpow levels
  · exact readsExactly_of_stops hd' (hr hv hfollows hright.1 hright.2) hstops

theorem raise (hl : IsReadAs tallest .atom u l d) (hd' : 0 < d')
    (hr : IsReadAs tallest .signed v r d') :
    IsReadAs tallest .power (u ++ .caret :: v) (.binary .pow l r) (max d (d' + 1)) :=
  binary hl hd' hr rfl (by decide) (fun _ _ hpow => hpow) (by decide)
    fun _ hf => ⟨hf.signed, hf.stops (by decide)⟩

theorem scale {token : Token} {op : BinaryOp} (hsign : ProductSign token op)
    (hl : IsReadAs tallest .product u l d) (hd' : 0 < d') (hr : IsReadAs tallest .signed v r d') :
    IsReadAs tallest .product (u ++ token :: v) (.binary op l r) (max d (d' + 1)) := by
  obtain ⟨hop, hprec, hnext⟩ := hsign.operator
  refine binary hl hd' hr hop ⟨Nat.le_refl _, Nat.le_of_eq hprec⟩ (fun loosest hloosest _ => ?_)
    (by rw [hnext]; decide) fun ws hf => ⟨hf.widen (by decide), ?_⟩
  · rw [hprec]
    exact Category.le_twenty_of_product hloosest
  · rw [hnext]
    exact hf.stops (by decide)

theorem combine {token : Token} {op : BinaryOp} (hsign : SumSign token op)
    (hl : IsReadAs tallest .sum u l d) (hd' : 0 < d') (hr : IsReadAs tallest .product v r d') :
    IsReadAs tallest .sum (u ++ token :: v) (.binary op l r) (max d (d' + 1)) := by
  obtain ⟨hop, hprec, hnext⟩ := hsign.operator
  refine binary hl hd' hr hop ⟨Nat.le_refl _, Nat.le_of_eq hprec⟩ (fun loosest hloosest _ => ?_)
    (by rw [hnext]; decide) fun ws hf => ⟨hf.widen (by decide), ?_⟩
  · rw [hprec]
    exact Category.le_ten_of_sum hloosest
  · rw [hnext]
    exact hf.stops (by decide)

end IsReadAs

/-- **Reading gets through every derivable formula**, whatever stands behind it, as long as that
    does not go on with the formula. -/
theorem isReadAs_of_derives (htall : 0 < tallest) {c : Category} {u : List Token} {e : Expr}
    {d : Nat} (h : Derives c u e d) : IsReadAs tallest c u e d := by
  -- on the derivation, with one lemma for each production
  induction h with
  | number value =>
      exact IsReadAs.leaf htall rfl fun levels t ws ht => by rw [readOperand_cons, ht]
  | symbol name =>
      exact IsReadAs.leaf htall rfl fun levels t ws ht => by rw [readOperand_cons, ht]
  | parens hinner ih => exact ih.parens hinner.depth_pos
  | ofAtom _ ih => exact ih.widen (by decide)
  | raise _ hr ihl ihr => exact ihl.raise hr.depth_pos ihr
  | ofPower _ ih => exact ih.widen (by decide)
  | minus hinner ih => exact ih.minus hinner.depth_pos
  | plus hinner ih => exact ih.plus hinner.depth_pos
  | ofSigned _ ih => exact ih.widen (by decide)
  | scale _ hsign hr ihl ihr => exact ihl.scale hsign hr.depth_pos ihr
  | ofProduct _ ih => exact ih.widen (by decide)
  | combine _ hsign hr ihl ihr => exact ihl.combine hsign hr.depth_pos ihr

/-! ## Soundness -/

theorem follows_atom (ts : List Placed) : Follows .atom ts := by
  intro op _
  cases op <;> decide

/-- The category of the formulas that an operator makes. -/
def opCategory : BinaryOp → Category
  | .add | .sub => .sum
  | .mul | .div => .product
  | .pow => .power

theorem ofLoosest_le_opCategory {op : BinaryOp} (h : loosest ≤ op.precedence) :
    (Category.ofLoosest loosest).tightness ≤ (opCategory op).tightness := by
  unfold Category.ofLoosest
  split
  · cases op <;> decide
  · split
    · cases op with
      | add | sub => exact absurd h (by assumption)
      | mul | div | pow => decide
    · cases op with
      | add | sub => exact absurd h (by assumption)
      | mul | div => exact absurd h (by assumption)
      | pow => decide

theorem ofLoosest_le_signed (loosest : Nat) :
    (Category.ofLoosest loosest).tightness ≤ Category.signed.tightness := by
  unfold Category.ofLoosest
  split
  · decide
  · split <;> decide

theorem Stops.follows_opCategory {op : BinaryOp} {ts : List Placed}
    (h : Stops op.rightPrecedence ts) : Follows (opCategory op) ts := by
  intro op' hop'
  have hlt := h op' hop'
  cases op <;> cases op' <;> first | decide | exact absurd hlt (by decide)

theorem Stops.follows_signed {ts : List Placed} (h : Stops signPrecedence ts) :
    Follows .signed ts := by
  intro op hop
  have hlt := h op hop
  cases op <;> first | decide | exact absurd hlt (by decide)

/-- An operator joins a formula it goes on with and the formula read behind it. -/
theorem derives_binary {c : Category} {t : Token} {op : BinaryOp} {u v : List Token} {l r : Expr}
    {d d' : Nat} (ht : operator? t = some op) (hl : Derives c u l d)
    (hc : op.precedence ≤ c.tightness)
    (hr : Derives (.ofLoosest op.rightPrecedence) v r d') :
    Derives (opCategory op) (u ++ t :: v) (.binary op l r) (max d (d' + 1)) := by
  cases t with
  | plus =>
      obtain rfl := Option.some.inj ht
      exact .combine (hl.widen hc) .plus hr
  | minus =>
      obtain rfl := Option.some.inj ht
      exact .combine (hl.widen hc) .minus hr
  | star =>
      obtain rfl := Option.some.inj ht
      exact .scale (hl.widen hc) .star hr
  | slash =>
      obtain rfl := Option.some.inj ht
      exact .scale (hl.widen hc) .slash hr
  | caret =>
      obtain rfl := Option.some.inj ht
      exact .raise (hl.widen hc) hr
  | openParen | closeParen | number | symbol => exact absurd ht (by simp [operator?])

/-- What was read from the front of the tokens is a formula, and its chain ended where it had to. -/
def ReadSoundly (loosest : Nat) (ts : List Placed) (r : Reading) : Prop :=
  ∃ us d, ts = us ++ r.2.2 ∧ Derives (.ofLoosest loosest) (us.map Placed.token) r.1 d ∧
    Stops loosest r.2.2

/-- Every formula read with so many levels is read soundly. -/
def LevelSound (tallest levels : Nat) : Prop :=
  ∀ {loosest : Nat} {ts : List Placed} {r : Reading},
    read tallest levels loosest ts = .ok r → ReadSoundly loosest ts r

/-- An operand that was read is at least as tight as a signed formula, and ended where it had to. -/
theorem derives_of_readOperand (hlevel : LevelSound tallest levels) {ts : List Placed} {r : Reading}
    (h : readOperand tallest levels ts = .ok r) :
    ∃ us c d, ts = us ++ r.2.2 ∧ Derives c (us.map Placed.token) r.1 d ∧
      Category.signed.tightness ≤ c.tightness ∧ Follows c r.2.2 := by
  cases ts with
  | nil => exact absurd h (by simp [readOperand_nil])
  | cons t ts =>
      rw [readOperand_cons] at h
      cases ht : t.token with
      | number value =>
          rw [ht] at h
          obtain rfl := Except.ok.inj h
          exact ⟨[t], .atom, 1, rfl, by rw [List.map_singleton, ht]; exact .number value, by decide,
            follows_atom ts⟩
      | symbol name =>
          rw [ht] at h
          obtain rfl := Except.ok.inj h
          exact ⟨[t], .atom, 1, rfl, by rw [List.map_singleton, ht]; exact .symbol name, by decide,
            follows_atom ts⟩
      | openParen =>
          rw [ht] at h
          obtain ⟨inner, hinner, hclose⟩ := exists_of_bind_eq_ok h
          obtain ⟨us, d, rfl, hd, -⟩ := hlevel hinner
          obtain ⟨close, hrest, hc, htree⟩ := closed_eq_ok hclose
          refine ⟨t :: (us ++ [close]), .atom, d + 1, by simp [hrest], ?_, by decide,
            follows_atom r.2.2⟩
          rw [List.map_cons, List.map_append, List.map_singleton, ht, hc, htree]
          exact .parens hd
      | minus =>
          rw [ht] at h
          obtain ⟨inner, hinner, hneg⟩ := exists_of_bind_eq_ok h
          obtain ⟨us, d, rfl, hd, hs⟩ := hlevel hinner
          obtain ⟨htree, hrest⟩ := negated_eq_ok hneg
          refine ⟨t :: us, .signed, d + 1, by rw [hrest]; rfl, ?_, Nat.le_refl _, ?_⟩
          · rw [List.map_cons, ht, htree]
            exact .minus hd
          · rw [hrest]
            exact hs.follows_signed
      | plus =>
          rw [ht] at h
          obtain ⟨us, d, rfl, hd, hs⟩ := hlevel h
          refine ⟨t :: us, .signed, d + 1, rfl, ?_, Nat.le_refl _, hs.follows_signed⟩
          rw [List.map_cons, ht]
          exact .plus hd
      | star | slash | caret | closeParen =>
          rw [ht] at h
          exact absurd h (by simp)

/-- The operators read behind a left operand make a formula with it. -/
theorem derives_of_readChain (hlevel : LevelSound tallest levels) {left : Expr} {height : Nat}
    {ts : List Placed} {r : Reading}
    (h : readChain tallest levels loosest left height ts = .ok r) {us : List Placed} {c : Category}
    {d : Nat} (hleft : Derives c (us.map Placed.token) left d)
    (hc : (Category.ofLoosest loosest).tightness ≤ c.tightness) (hf : Follows c ts) :
    ∃ vs d', ts = vs ++ r.2.2 ∧ Derives (.ofLoosest loosest) ((us ++ vs).map Placed.token) r.1 d' ∧
      Stops loosest r.2.2 := by
  -- on the tokens left: each operator hands a longer left operand on
  induction hn : ts.length using Nat.strongRecOn generalizing ts left height us c d with
  | ind n ih =>
  cases ts with
  | nil =>
      rw [readChain_nil] at h
      obtain rfl := Except.ok.inj h
      refine ⟨[], d, rfl, ?_, fun op hop => absurd hop (by simp [headOperator?])⟩
      rw [List.append_nil]
      exact hleft.widen hc
  | cons t ts =>
      rcases readChain_cons_eq_ok h with ⟨hstop, rfl⟩ | ⟨op, right, taller, ht, hop, hright, hrest⟩
      · refine ⟨[], d, rfl, ?_, hstop⟩
        rw [List.append_nil]
        exact hleft.widen hc
      · obtain ⟨vs, d', rfl, hd, hs⟩ := hlevel hright
        have hbinary := derives_binary ht hleft (hf op ht) hd
        have hlength : right.2.2.length < n := by
          rw [← hn, List.length_cons, List.length_append]
          omega
        rw [← List.map_cons, ← List.map_append] at hbinary
        obtain ⟨vs', d'', hvs', hd', hs'⟩ := ih right.2.2.length hlength hrest hbinary
          (ofLoosest_le_opCategory hop) hs.follows_opCategory rfl
        refine ⟨t :: (vs ++ vs'), d'', ?_, ?_, hs'⟩
        · rw [hvs', List.cons_append, List.append_assoc]
        · rw [List.append_assoc, List.cons_append] at hd'
          exact hd'

/-- **Whatever is read is derivable**, with any number of levels. -/
theorem levelSound (tallest levels : Nat) : LevelSound tallest levels := by
  induction levels with
  | zero =>
      intro loosest ts r h
      exact absurd h (by simp [read_zero])
  | succ levels ih =>
      intro loosest ts r h
      rw [read_succ] at h
      obtain ⟨first, hfirst, hchain⟩ := exists_of_bind_eq_ok h
      obtain ⟨us, c, d, rfl, hd, hc, hf⟩ := derives_of_readOperand ih hfirst
      obtain ⟨vs, d', hvs, hd', hs⟩ := derives_of_readChain ih hchain hd
        (Nat.le_trans (ofLoosest_le_signed loosest) hc) hf
      exact ⟨us ++ vs, d', by rw [hvs, List.append_assoc], hd', hs⟩

/-! ## The parser -/

/-- Reading a whole derivable formula. -/
theorem read_of_derives (levels : Nat) (htall : 0 < tallest) {ts : List Placed} {e : Expr} {d : Nat}
    (h : Derives .sum (ts.map Placed.token) e d) :
    read tallest levels 0 ts = withinBounds levels tallest d e.height (.ok (e, e.height, [])) := by
  have hfollows : Follows .sum [] := fun op hop => absurd hop (by simp [headOperator?])
  have hread : ReadsExactly tallest levels 0 ts e d [] :=
    readsExactly_of_stops h.depth_pos
      (isReadAs_of_derives htall h rfl hfollows (by decide) (by decide))
      (fun op hop => absurd hop (by simp [headOperator?]))
  rw [ReadsExactly, List.append_nil] at hread
  exact hread

/-- The parser on a derivable formula. -/
theorem parse_of_derives {ts : List Placed} {e : Expr} {d : Nat}
    (h : Derives .sum (ts.map Placed.token) e d) :
    parse ts = if d ≤ maxDepth ∧ e.height ≤ maxDepth then .ok e else .error .tooDeep := by
  have hts : ts ≠ [] := fun hnil => h.ne_nil (List.map_eq_nil_iff.mpr hnil)
  rw [parse_eq hts, read_of_derives maxDepth (by decide) h, withinBounds]
  split <;> rfl

/-- The parser succeeds on derivable formulas only. -/
theorem derives_of_parse {ts : List Placed} {e : Expr} (h : parse ts = .ok e) :
    ∃ d, Derives .sum (ts.map Placed.token) e d := by
  have hts : ts ≠ [] := by rintro rfl; exact absurd h (by simp [parse])
  rw [parse_eq hts] at h
  obtain ⟨⟨tree, height, rest⟩, hread, hrest⟩ := exists_of_bind_eq_ok h
  obtain ⟨us, d, hus, hd, -⟩ := levelSound maxDepth maxDepth hread
  cases rest with
  | nil =>
      obtain rfl := Except.ok.inj hrest
      rw [List.append_nil] at hus
      exact ⟨d, hus ▸ hd⟩
  | cons t rest => exact absurd hrest (by simp)

/-- Two derivations of the same tokens make the same tree: with the levels of the first and room for
    both trees, reading gives one answer. -/
theorem derives_agree {ts : List Token} {e e' : Expr} {d d' : Nat} (h : Derives .sum ts e d)
    (h' : Derives .sum ts e' d') : e = e' ∧ d' ≤ d := by
  have hmap : (ts.map fun t => Placed.mk t 0).map Placed.token = ts := by
    rw [List.map_map]
    exact List.map_id ts
  have htall : 0 < e.height + e'.height + 1 := Nat.succ_pos _
  have hread := read_of_derives d htall (hmap.symm ▸ h)
  have hread' := read_of_derives d htall (hmap.symm ▸ h')
  rw [withinBounds_of_le (Nat.le_refl d) (by omega)] at hread
  rcases Nat.lt_or_ge d d' with hlt | hle
  · rw [withinBounds_of_lt (.inl hlt), hread] at hread'
    exact absurd hread' (by simp)
  · rw [withinBounds_of_le hle (by omega), hread] at hread'
    exact ⟨congrArg Prod.fst (Except.ok.inj hread'), hle⟩

/-- **The grammar is unambiguous**, in trees and in nesting depths. -/
theorem derives_unique {ts : List Token} {e e' : Expr} {d d' : Nat} (h : Derives .sum ts e d)
    (h' : Derives .sum ts e' d') : e = e' ∧ d = d' :=
  ⟨(derives_agree h h').1, Nat.le_antisymm (derives_agree h' h).2 (derives_agree h h').2⟩

/-- **The parser accepts exactly the grammar.** It answers a tree exactly for the token lists that
    derive it within both bounds, answers `tooDeep` for all others that are derivable, and no token
    list derives two trees. -/
theorem parse_ok_iff_derives (ts : List Placed) :
    (∀ e, parse ts = .ok e ↔
      ∃ d, Derives .sum (ts.map Placed.token) e d ∧ e.height ≤ 256 ∧ d ≤ 256) ∧
    (∀ e d, Derives .sum (ts.map Placed.token) e d → 256 < e.height ∨ 256 < d →
      parse ts = .error .tooDeep) ∧
    (∀ e d e' d', Derives .sum (ts.map Placed.token) e d →
      Derives .sum (ts.map Placed.token) e' d' → e = e' ∧ d = d') := by
  refine ⟨fun e => ⟨fun h => ?_, ?_⟩, fun e d h hdeep => ?_, fun e d e' d' => derives_unique⟩
  · obtain ⟨d, hd⟩ := derives_of_parse h
    rw [parse_of_derives hd] at h
    split at h
    · rename_i hb
      exact ⟨d, hd, hb.2, hb.1⟩
    · exact absurd h (by simp)
  · rintro ⟨d, hd, hheight, hdepth⟩
    rw [parse_of_derives hd, if_pos ⟨hdepth, hheight⟩]
  · rw [parse_of_derives h, if_neg (by unfold maxDepth; omega)]

end Reckoner.Formula
