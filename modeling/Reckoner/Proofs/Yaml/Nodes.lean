import Reckoner.Proofs.Yaml.Entries
import Reckoner.Yaml.Read

/-!
# `Reckoner.Proofs.Yaml.Nodes` — the node of a written document

The tokens of a value are read back as a node: scalars as they are heard, lists and mappings around
them. `Builds` leaves open what follows the tokens, so that the parts of a collection are read one
after the other; the size of what is read grows in passing, and nothing depends on it.

## Contents
- **Nodes.** `Node.ofJson`: the node of a value.
- **Readings.** `Builds`: tokens in front of any others are read as a node.
- **Collections.** Items and entries, one after the other.
- **Values.** `builds_value`, and `Fits` for the values that are not too deep.
- **Documents.** `ofTokens?_object`: the node of a whole document.
-/

namespace Reckoner.Yaml

/-! ## Nodes -/

namespace Node

mutual

/-- The node of a value. -/
def ofJson : Json → Node
  | .string s => .scalar (spellingOf s.toList) .untagged (heardOf s.toList)
  | .array vs => .list (ofItems vs)
  | .object ms => .mapping (ofMembers ms)
  | leaf => .scalar .plain .untagged (leafChars 0 leaf)

/-- The nodes of items. -/
def ofItems : List Json → List Node
  | [] => []
  | v :: vs => ofJson v :: ofItems vs

/-- The entries of members. -/
def ofMembers : List (String × Json) → List (Node × Node)
  | [] => []
  | (name, value) :: ms => (.scalar .plain .untagged name.toList, ofJson value) :: ofMembers ms

end

end Node

/-! ## Readings -/

section Readings

variable {r : Reading} {t : Token} {ts more : List Token}

/-- The same reading before other tokens. -/
def Reading.before (r : Reading) (ts : List Token) (size : Nat) : Reading :=
  { r with tokens := ts, size := size }

@[simp] theorem Reading.before_before (us : List Token) (size₁ size₂ : Nat) :
    (r.before ts size₁).before us size₂ = r.before us size₂ := rfl

/-- Tokens in front of any others are read as a value. -/
def Builds {α : Type} (read : Build α) (ts : List Token) (a : α) : Prop :=
  ∀ {r : Reading} {more : List Token}, r.tokens = ts ++ more →
    ∃ size, read.run r = some (a, r.before more size)

theorem run_front (h : r.tokens = t :: more) (hfault : t ≠ .fault) :
    front.run r = some (some t, r) := by
  have hhead : r.tokens.head? = some t := by rw [h]; rfl
  rw [front]
  simp only [StateT.run_bind, StateT.run_get, Option.pure_def, Option.bind_eq_bind,
    Option.bind_some, h]
  cases t <;> first | rfl | exact absurd rfl hfault

theorem run_sees (h : r.tokens = t :: more) (hfault : t ≠ .fault) (ts : List Token) :
    (sees ts).run r = some (ts.contains t, r) := by
  rw [sees]
  simp only [StateT.run_bind, run_front h hfault, Option.bind_eq_bind, Option.bind_some]
  rfl

theorem run_drop (h : r.tokens = t :: more) : drop.run r = some ((), r.before more r.size) := by
  have hdrop : drop.run r = some ((), { r with tokens := r.tokens.drop 1 }) := rfl
  rw [hdrop, h]
  rfl

theorem run_grow (r : Reading) (size : Nat) :
    (grow size).run r = some ((), r.before r.tokens (r.size + size)) := rfl

theorem run_accepts (h : r.tokens = t :: more) (hfault : t ≠ .fault) :
    (accepts t).run r = some (true, r.before more r.size) := by
  have hsees := run_sees h hfault [t]
  rw [show [t].contains t = true by simp] at hsees
  rw [accepts]
  simp only [StateT.run_bind, hsees, Option.bind_eq_bind, Option.bind_some, if_true, run_drop h]
  rfl

theorem run_accepts_other {t₁ : Token} (h : r.tokens = t :: more) (hfault : t ≠ .fault)
    (hne : t ≠ t₁) : (accepts t₁).run r = some (false, r) := by
  have hsees := run_sees h hfault [t₁]
  rw [show [t₁].contains t = false by simp [hne]] at hsees
  rw [accepts]
  simp only [StateT.run_bind, hsees, Option.bind_eq_bind, Option.bind_some]
  rfl

/-- The tokens that values begin with. -/
def opensNode : Token → Bool
  | .scalar .. | .flowListStart | .listStart | .mappingStart => true
  | _ => false

theorem not_fault_of_opensNode (h : opensNode t = true) : t ≠ .fault := by
  rintro rfl
  exact absurd h nofun

/-- Values have neither anchors nor tags. -/
theorem run_properties (h : r.tokens = t :: more) (hopens : opensNode t = true) :
    properties.run r = some (⟨none, none⟩, r) := by
  have hfront := run_front h (not_fault_of_opensNode hopens)
  have hanchor : anchor?.run r = some (none, r) := by
    rw [anchor?]
    simp only [StateT.run_bind, hfront, Option.bind_eq_bind, Option.bind_some]
    cases t <;> first | rfl | exact absurd hopens nofun
  have htag : tag?.run r = some (none, r) := by
    rw [tag?]
    simp only [StateT.run_bind, hfront, Option.bind_eq_bind, Option.bind_some]
    cases t <;> first | rfl | exact absurd hopens nofun
  rw [properties]
  simp only [StateT.run_bind, hanchor, htag, Option.bind_eq_bind, Option.bind_some]
  rfl

theorem run_attach {p : Properties} (h : p.anchor = none) (read : Build Node) :
    (p.attach read).run r = read.run r := by
  rw [Properties.attach, h]
  simp only [StateT.run_bind, StateT.run_get, Option.pure_def, Option.bind_eq_bind,
    Option.bind_some, StateT.run_pure]
  cases read.run r with
  | none => rfl
  | some result => rfl

theorem run_nodeWithin (h : r.tokens = t :: more) (hopens : opensNode t = true) (fuel : Nat)
    (place : Place) :
    (nodeWithin (fuel + 1) place).run r = (bare (nodeWithin fuel) ⟨none, none⟩ place).run r := by
  have hfront := run_front h (not_fault_of_opensNode hopens)
  have hproperties := run_properties h hopens
  rw [nodeWithin]
  simp only [StateT.run_bind, hfront, Option.bind_eq_bind, Option.bind_some]
  split
  · rename_i halias
    rw [Option.some.inj halias] at hopens
    exact absurd hopens nofun
  · simp only [StateT.run_bind, hproperties, Option.bind_eq_bind, Option.bind_some]
    exact run_attach rfl _

/-- A scalar stands for itself. -/
theorem builds_scalar (fuel : Nat) (place : Place) (spelling : Spelling) (text : List Char) :
    Builds (nodeWithin (fuel + 1) place) [.scalar spelling text]
      (.scalar spelling .untagged text) := by
  intro r more h
  refine ⟨r.size + 1, ?_⟩
  rw [run_nodeWithin h rfl, bare]
  simp only [StateT.run_bind, run_front h Token.noConfusion, Option.bind_eq_bind, Option.bind_some,
    run_drop h, Properties.scalar, run_grow]
  rfl

theorem run_collection (h : r.tokens = t :: more) (read : Nat → Build Node) :
    (collection read).run r = (read (more.length + 1)).run (r.before more (r.size + 2)) := by
  rw [collection]
  simp only [StateT.run_bind, Option.bind_eq_bind, Option.bind_some, run_drop h, run_grow]
  rfl

/-- An empty list is its brackets. -/
theorem builds_nil (fuel : Nat) (place : Place) :
    Builds (nodeWithin (fuel + 1) place) [.flowListStart, .flowListEnd] (.list []) := by
  intro r more h
  refine ⟨r.size + 2, ?_⟩
  rw [run_nodeWithin h rfl, bare]
  simp only [StateT.run_bind, run_front h Token.noConfusion, Option.bind_eq_bind, Option.bind_some]
  rw [run_collection h]
  rfl

end Readings

/-! ## Collections -/

section Collections

variable {node : Place → Build Node} {r : Reading} {ts more : List Token}

/-- A value begins with a token that opens a node. -/
def Opens (ts : List Token) : Prop := ∃ t more, ts = t :: more ∧ opensNode t = true

/-- A value follows where a node may be missing. -/
theorem run_nodeUnless (h : r.tokens = ts ++ more) (hopens : Opens ts) {ends : List Token}
    (hends : ∀ t ∈ ends, opensNode t = false) (place : Place) :
    (nodeUnless node ends place).run r = (node place).run r := by
  obtain ⟨t, behind, rfl, hopens⟩ := hopens
  have hnone : ends.contains t = false := by
    rw [Bool.eq_false_iff]
    intro hmem
    rw [hends t (List.contains_iff_mem.mp hmem)] at hopens
    exact absurd hopens Bool.false_ne_true
  rw [nodeUnless]
  simp only [StateT.run_bind, run_sees h (not_fault_of_opensNode hopens), hnone,
    Option.bind_eq_bind, Option.bind_some]
  rfl

/-- A list ends with its block. -/
theorem run_blockItems_end (h : r.tokens = .blockEnd :: more) (fuel : Nat) (known : List Node) :
    (blockItems node (fuel + 1) known).run r =
      some (.list known.reverse, r.before more r.size) := by
  rw [blockItems]
  simp only [StateT.run_bind, run_accepts h Token.noConfusion, Option.bind_eq_bind,
    Option.bind_some]
  rfl

/-- An item is read, and then the further ones. -/
theorem run_blockItems_item {n : Node} (hopens : Opens ts) (hbuilds : Builds (node .block) ts n)
    (h : r.tokens = .item :: (ts ++ more)) (fuel : Nat) (known : List Node) :
    ∃ size, (blockItems node (fuel + 1) known).run r =
      (blockItems node fuel (n :: known)).run (r.before more size) := by
  have hr₁ : (r.before (ts ++ more) r.size).tokens = ts ++ more := rfl
  obtain ⟨size, hread⟩ := hbuilds hr₁
  have hend : (accepts .blockEnd).run r = some (false, r) :=
    run_accepts_other h Token.noConfusion Token.noConfusion
  have hends : ∀ t ∈ [Token.item, .blockEnd], opensNode t = false := by decide
  have hnode := (run_nodeUnless hr₁ hopens hends .block).trans hread
  refine ⟨size, ?_⟩
  rw [blockItems]
  simp only [StateT.run_bind, hend, Bool.false_eq_true, if_false,
    run_accepts h Token.noConfusion, Option.bind_eq_bind, Option.bind_some, guard_true,
    StateT.run_pure, Option.pure_def, hnode]
  rfl

/-- Items are read as values. -/
def BuildsItems (node : Place → Build Node) (vs : List Json) : Prop :=
  ∀ v ∈ vs, Opens (valueTokens v) ∧ Builds (node .block) (valueTokens v) (.ofJson v)

theorem builds_items {vs : List Json} (h : BuildsItems node vs) {fuel : Nat}
    (hfuel : vs.length < fuel) (known : List Node) :
    Builds (blockItems node fuel known) (itemsTokens vs ++ [.blockEnd])
      (.list (known.reverse ++ Node.ofItems vs)) := by
  induction vs generalizing fuel known with
  | nil =>
      intro r more htokens
      obtain ⟨fuel, rfl⟩ := Nat.exists_eq_succ_of_ne_zero (Nat.ne_zero_of_lt hfuel)
      rw [Node.ofItems, List.append_nil]
      exact ⟨r.size, run_blockItems_end htokens fuel known⟩
  | cons v vs ih =>
      intro r more htokens
      obtain ⟨fuel, rfl⟩ := Nat.exists_eq_succ_of_ne_zero (Nat.ne_zero_of_lt hfuel)
      obtain ⟨hopens, hbuilds⟩ := h v List.mem_cons_self
      have htokens₁ :
          r.tokens = .item :: (valueTokens v ++ (itemsTokens vs ++ [.blockEnd] ++ more)) := by
        rw [htokens, itemsTokens]
        simp
      obtain ⟨size₁, hitem⟩ := run_blockItems_item hopens hbuilds htokens₁ fuel known
      obtain ⟨size₂, hread⟩ := ih (fun w hw => h w (List.mem_cons_of_mem _ hw))
        (Nat.lt_of_succ_lt_succ hfuel) (.ofJson v :: known)
        (r := r.before (itemsTokens vs ++ [.blockEnd] ++ more) size₁) rfl
      have hlist : (Node.ofJson v :: known).reverse ++ Node.ofItems vs =
          known.reverse ++ Node.ofItems (v :: vs) := by
        simp [Node.ofItems]
      rw [← hlist]
      exact ⟨size₂, hitem.trans hread⟩

/-- A name and a value are read as an entry. -/
theorem builds_entry {name : String} {value : Json}
    (hname : Builds (node .entry) [.scalar .plain name.toList]
      (.scalar .plain .untagged name.toList))
    (hopens : Opens (valueTokens value))
    (hvalue : Builds (node .entry) (valueTokens value) (.ofJson value)) :
    Builds (blockEntry node) ([.key, .scalar .plain name.toList, .value] ++ valueTokens value)
      (.scalar .plain .untagged name.toList, .ofJson value) := by
  intro r more htokens
  have htokens : r.tokens =
      .key :: ([.scalar .plain name.toList] ++ (.value :: (valueTokens value ++ more))) := by
    rw [htokens]
    simp
  have hr₁ : (r.before ([.scalar .plain name.toList] ++ (.value :: (valueTokens value ++ more)))
      r.size).tokens =
      [.scalar .plain name.toList] ++ (.value :: (valueTokens value ++ more)) := rfl
  obtain ⟨size₁, hread₁⟩ := hname hr₁
  have hends : ∀ t ∈ [Token.key, .value, .blockEnd], opensNode t = false := by decide
  have hkey := (run_nodeUnless hr₁ ⟨_, _, rfl, rfl⟩ hends .entry).trans hread₁
  have hcolon : (accepts .value).run (r.before (.value :: (valueTokens value ++ more)) size₁) =
      some (true, r.before (valueTokens value ++ more) size₁) := run_accepts rfl Token.noConfusion
  have hr₃ : (r.before (valueTokens value ++ more) size₁).tokens = valueTokens value ++ more := rfl
  obtain ⟨size₂, hread₂⟩ := hvalue hr₃
  have hnode := (run_nodeUnless hr₃ hopens hends .entry).trans hread₂
  rw [Reading.before_before] at hkey hnode
  refine ⟨size₂, ?_⟩
  rw [blockEntry]
  simp only [StateT.run_bind, run_accepts htokens Token.noConfusion, Option.bind_eq_bind,
    Option.bind_some, if_true, hkey, valueUnless, hcolon, hnode, StateT.run_pure, Option.pure_def]

/-- A mapping ends with its block. -/
theorem run_blockEntries_end (h : r.tokens = .blockEnd :: more) (fuel : Nat)
    (known : List (Node × Node)) :
    (blockEntries node (fuel + 1) known).run r =
      some (.mapping known.reverse, r.before more r.size) := by
  rw [blockEntries]
  simp only [StateT.run_bind, run_accepts h Token.noConfusion, Option.bind_eq_bind,
    Option.bind_some]
  rfl

/-- An entry is read, and then the further ones. -/
theorem run_blockEntries_entry {entry : Node × Node}
    (hbuilds : Builds (blockEntry node) (.key :: ts) entry) (h : r.tokens = .key :: ts ++ more)
    (fuel : Nat) (known : List (Node × Node)) :
    ∃ size, (blockEntries node (fuel + 1) known).run r =
      (blockEntries node fuel (entry :: known)).run (r.before more size) := by
  obtain ⟨size, hread⟩ := hbuilds h
  have hend : (accepts .blockEnd).run r = some (false, r) :=
    run_accepts_other h Token.noConfusion Token.noConfusion
  refine ⟨size, ?_⟩
  rw [blockEntries]
  simp only [StateT.run_bind, hend, Bool.false_eq_true, if_false, Option.bind_eq_bind,
    Option.bind_some, hread]

/-- Names are read as keys, and their values as values. -/
def BuildsEntries (node : Place → Build Node) (ms : List (String × Json)) : Prop :=
  ∀ m ∈ ms,
    Builds (node .entry) [.scalar .plain m.1.toList] (.scalar .plain .untagged m.1.toList) ∧
      Opens (valueTokens m.2) ∧ Builds (node .entry) (valueTokens m.2) (.ofJson m.2)

theorem builds_entries {ms : List (String × Json)} (h : BuildsEntries node ms) {fuel : Nat}
    (hfuel : ms.length < fuel) (known : List (Node × Node)) :
    Builds (blockEntries node fuel known) (membersTokens ms ++ [.blockEnd])
      (.mapping (known.reverse ++ Node.ofMembers ms)) := by
  induction ms generalizing fuel known with
  | nil =>
      intro r more htokens
      obtain ⟨fuel, rfl⟩ := Nat.exists_eq_succ_of_ne_zero (Nat.ne_zero_of_lt hfuel)
      rw [Node.ofMembers, List.append_nil]
      exact ⟨r.size, run_blockEntries_end htokens fuel known⟩
  | cons m ms ih =>
      intro r more htokens
      obtain ⟨name, value⟩ := m
      obtain ⟨fuel, rfl⟩ := Nat.exists_eq_succ_of_ne_zero (Nat.ne_zero_of_lt hfuel)
      obtain ⟨hname, hopens, hvalue⟩ := h _ List.mem_cons_self
      have htokens₁ :
          r.tokens = ([.key, .scalar .plain name.toList, .value] ++ valueTokens value) ++
            (membersTokens ms ++ [.blockEnd] ++ more) := by
        rw [htokens, membersTokens]
        simp
      obtain ⟨size₁, hentry⟩ :=
        run_blockEntries_entry (builds_entry hname hopens hvalue) htokens₁ fuel known
      obtain ⟨size₂, hread⟩ := ih (fun m hm => h m (List.mem_cons_of_mem _ hm))
        (Nat.lt_of_succ_lt_succ hfuel)
        ((.scalar .plain .untagged name.toList, .ofJson value) :: known)
        (r := r.before (membersTokens ms ++ [.blockEnd] ++ more) size₁) rfl
      have hmapping :
          ((Node.scalar .plain .untagged name.toList, Node.ofJson value) :: known).reverse ++
            Node.ofMembers ms = known.reverse ++ Node.ofMembers ((name, value) :: ms) := by
        simp [Node.ofMembers]
      rw [← hmapping]
      exact ⟨size₂, hentry.trans hread⟩

theorem length_itemsTokens (vs : List Json) : vs.length ≤ (itemsTokens vs).length := by
  induction vs with
  | nil => exact Nat.zero_le _
  | cons v vs ih =>
      rw [itemsTokens, List.length_append, List.length_cons, List.length_cons]
      omega

theorem length_membersTokens (ms : List (String × Json)) :
    ms.length ≤ (membersTokens ms).length := by
  induction ms with
  | nil => exact Nat.zero_le _
  | cons m ms ih =>
      rw [membersTokens, List.length_append, List.length_append, List.length_cons, List.length_cons]
      omega

/-- A list behind its mark. -/
theorem builds_list {vs : List Json} {fuel : Nat} {place : Place} (hplace : place ≠ .flow)
    (h : BuildsItems (nodeWithin fuel) vs) :
    Builds (nodeWithin (fuel + 1) place) (.listStart :: itemsTokens vs ++ [.blockEnd])
      (.list (Node.ofItems vs)) := by
  intro r more htokens
  have hlength := length_itemsTokens vs
  have hfuel : vs.length < (itemsTokens vs ++ [Token.blockEnd] ++ more).length + 1 := by
    simp only [List.length_append]
    omega
  obtain ⟨size, hread⟩ := builds_items h hfuel []
    (r := r.before (itemsTokens vs ++ [.blockEnd] ++ more) (r.size + 2)) rfl
  refine ⟨size, ?_⟩
  rw [run_nodeWithin htokens rfl, bare]
  simp only [StateT.run_bind, run_front htokens Token.noConfusion, Option.bind_eq_bind,
    Option.bind_some]
  cases place with
  | flow => exact absurd rfl hplace
  | block => exact (run_collection htokens _).trans hread
  | entry => exact (run_collection htokens _).trans hread

/-- A mapping behind its mark. -/
theorem builds_mapping {ms : List (String × Json)} {fuel : Nat} {place : Place}
    (hplace : place ≠ .flow) (h : BuildsEntries (nodeWithin fuel) ms) :
    Builds (nodeWithin (fuel + 1) place) (.mappingStart :: membersTokens ms ++ [.blockEnd])
      (.mapping (Node.ofMembers ms)) := by
  intro r more htokens
  have hlength := length_membersTokens ms
  have hfuel : ms.length < (membersTokens ms ++ [Token.blockEnd] ++ more).length + 1 := by
    simp only [List.length_append]
    omega
  obtain ⟨size, hread⟩ := builds_entries h hfuel []
    (r := r.before (membersTokens ms ++ [.blockEnd] ++ more) (r.size + 2)) rfl
  refine ⟨size, ?_⟩
  rw [run_nodeWithin htokens rfl, bare]
  simp only [StateT.run_bind, run_front htokens Token.noConfusion, Option.bind_eq_bind,
    Option.bind_some]
  cases place with
  | flow => exact absurd rfl hplace
  | block => exact (run_collection htokens _).trans hread
  | entry => exact (run_collection htokens _).trans hread

end Collections

/-! ## Values -/

theorem opens_valueTokens (v : Json) (h : isRegular v = true) : Opens (valueTokens v) := by
  cases v with
  | string text => exact ⟨_, _, rfl, rfl⟩
  | whole k => exact ⟨_, _, rfl, rfl⟩
  | number x => exact ⟨_, _, rfl, rfl⟩
  | array vs => cases vs <;> exact ⟨_, _, rfl, rfl⟩
  | object ms =>
      cases ms with
      | nil => exact absurd h Bool.false_ne_true
      | cons m ms => exact ⟨_, _, rfl, rfl⟩
  | null => exact absurd h Bool.false_ne_true
  | bool value => exact absurd h Bool.false_ne_true

mutual

/-- **Values.** The tokens of a regular value are read back as its node. -/
theorem builds_value : ∀ v : Json, isRegular v = true → ∀ {fuel : Nat} {place : Place},
    place ≠ .flow → (Node.ofJson v).depth < fuel →
      Builds (nodeWithin fuel place) (valueTokens v) (.ofJson v)
  | .string _, _, fuel + 1, _, _, _ => builds_scalar fuel _ _ _
  | .whole _, _, fuel + 1, _, _, _ => builds_scalar fuel _ _ _
  | .number _, _, fuel + 1, _, _, _ => builds_scalar fuel _ _ _
  | .array [], _, fuel + 1, _, _, _ => builds_nil fuel _
  | .array (v :: vs), h, fuel + 1, _, hplace, hfuel => by
      rw [isRegular] at h
      exact builds_list hplace (builds_records (v :: vs) h (Nat.lt_of_succ_lt_succ hfuel))
  | .object (m :: ms), h, fuel + 1, _, hplace, hfuel => by
      rw [isRegular] at h
      exact builds_mapping hplace (builds_members (m :: ms) h (Nat.lt_of_succ_lt_succ hfuel))
  | .object [], h, _, _, _, _ => absurd h nofun
  | .null, h, _, _, _, _ => absurd h nofun
  | .bool _, h, _, _, _, _ => absurd h nofun
  | _, _, 0, _, _, hfuel => absurd hfuel (Nat.not_lt_zero _)

theorem builds_members : ∀ ms : List (String × Json), areRegular ms = true → ∀ {fuel : Nat},
    Node.depthOfEntries (Node.ofMembers ms) < fuel → BuildsEntries (nodeWithin fuel) ms
  | [], _, _, _ => nofun
  | (name, value) :: ms, h, fuel, hfuel => by
      rw [areRegular, Bool.and_eq_true, Bool.and_eq_true] at h
      rw [Node.ofMembers, Node.depthOfEntries] at hfuel
      intro m hm
      rcases List.mem_cons.mp hm with rfl | hm
      · obtain ⟨fuel, rfl⟩ := Nat.exists_eq_succ_of_ne_zero (Nat.ne_zero_of_lt hfuel)
        exact ⟨builds_scalar fuel .entry .plain _, opens_valueTokens value h.1.2,
          builds_value value h.1.2 (by decide : Place.entry ≠ .flow) (by omega)⟩
      · exact builds_members ms h.2 (by omega) m hm

theorem builds_records : ∀ vs : List Json, areRecords vs = true → ∀ {fuel : Nat},
    Node.depthOfItems (Node.ofItems vs) < fuel → BuildsItems (nodeWithin fuel) vs
  | [], _, _, _ => nofun
  | .object (m :: ms) :: vs, h, fuel, hfuel => by
      rw [areRecords, Bool.and_eq_true] at h
      rw [Node.ofItems, Node.depthOfItems] at hfuel
      have hobject : isRegular (.object (m :: ms)) = true := by rw [isRegular]; exact h.1
      intro v hv
      rcases List.mem_cons.mp hv with rfl | hv
      · refine ⟨opens_valueTokens _ hobject, ?_⟩
        exact builds_value (.object (m :: ms)) hobject (by decide : Place.block ≠ .flow) (by omega)
      · exact builds_records vs h.2 (by omega) v hv
  | .object [] :: _, h, _, _ => absurd h nofun
  | .null :: _, h, _, _ => absurd h nofun
  | .bool _ :: _, h, _, _ => absurd h nofun
  | .whole _ :: _, h, _, _ => absurd h nofun
  | .number _ :: _, h, _, _ => absurd h nofun
  | .string _ :: _, h, _, _ => absurd h nofun
  | .array _ :: _, h, _, _ => absurd h nofun

end

/-- A regular value of the given depth at most. -/
structure Fits (k : Nat) (v : Json) : Prop where
  regular : isRegular v = true
  depth : (Node.ofJson v).depth ≤ k

theorem fits_string (text : String) : Fits 0 (.string text) := ⟨rfl, Nat.le_refl _⟩

theorem fits_whole (n : Int) : Fits 0 (.whole n) := ⟨rfl, Nat.le_refl _⟩

theorem fits_number {x : Float} (h : x.isFinite = true) : Fits 0 (.number x) := ⟨h, Nat.le_refl _⟩

theorem Fits.mono {j k : Nat} {v : Json} (h : Fits j v) (hle : j ≤ k) : Fits k v :=
  ⟨h.regular, h.depth.trans hle⟩

theorem areRegular_iff {ms : List (String × Json)} :
    areRegular ms = true ↔ ∀ m ∈ ms, isName m.1 = true ∧ isRegular m.2 = true := by
  induction ms with
  | nil => exact iff_of_true rfl nofun
  | cons m ms ih =>
      rw [areRegular, Bool.and_eq_true, Bool.and_eq_true, ih, List.forall_mem_cons]

/-- Members with names as keys, and values of the given depth at most. -/
def FitsMembers (k : Nat) (ms : List (String × Json)) : Prop :=
  ∀ m ∈ ms, isName m.1 = true ∧ Fits k m.2

section FitsMembers

variable {k : Nat} {ms more : List (String × Json)} {name : String}

theorem FitsMembers.nil : FitsMembers k [] := nofun

theorem FitsMembers.cons {v : Json} (hname : isName name = true) (hv : Fits k v)
    (h : FitsMembers k ms) : FitsMembers k ((name, v) :: ms) :=
  List.forall_mem_cons.mpr ⟨⟨hname, hv⟩, h⟩

theorem FitsMembers.append (h : FitsMembers k ms) (hmore : FitsMembers k more) :
    FitsMembers k (ms ++ more) := fun m hm =>
  (List.mem_append.mp hm).elim (h m) (hmore m)

theorem FitsMembers.optional {α : Type} {encode : α → Json} {o : Option α}
    (hname : isName name = true) (h : ∀ a, o = some a → Fits k (encode a)) :
    FitsMembers k (Json.optionalMember name encode o) := by
  cases o with
  | none => exact .nil
  | some a => exact .cons hname (h a rfl) .nil

end FitsMembers

theorem fits_object {k : Nat} {ms : List (String × Json)} (hne : ms ≠ []) (h : FitsMembers k ms) :
    Fits (k + 1) (.object ms) := by
  obtain ⟨m, more, rfl⟩ := List.exists_cons_of_ne_nil hne
  refine ⟨?_, ?_⟩
  · rw [isRegular, areRegular_iff]
    exact fun m hm => ⟨(h m hm).1, (h m hm).2.regular⟩
  · rw [Node.ofJson, Node.depth]
    refine Nat.succ_le_succ ?_
    clear hne
    generalize m :: more = ms at h
    induction ms with
    | nil => exact Nat.zero_le _
    | cons m ms ih =>
        obtain ⟨hm, hms⟩ := List.forall_mem_cons.mp h
        exact Nat.max_le.mpr ⟨Nat.max_le.mpr ⟨Nat.zero_le _, hm.2.depth⟩, ih hms⟩

theorem fits_array {k : Nat} {vs : List Json}
    (h : ∀ v ∈ vs, (∃ m ms, v = .object (m :: ms)) ∧ Fits k v) : Fits (k + 1) (.array vs) := by
  refine ⟨?_, ?_⟩
  · rw [isRegular]
    induction vs with
    | nil => rfl
    | cons v vs ih =>
        rw [List.forall_mem_cons] at h
        obtain ⟨⟨⟨m, ms, rfl⟩, hfits⟩, hrest⟩ := h
        have hmembers := hfits.regular
        rw [isRegular] at hmembers
        rw [areRecords, hmembers, ih hrest]
        rfl
  · rw [Node.ofJson, Node.depth]
    refine Nat.succ_le_succ ?_
    induction vs with
    | nil => exact Nat.zero_le _
    | cons v vs ih =>
        rw [List.forall_mem_cons] at h
        exact Nat.max_le.mpr ⟨h.1.2.depth, ih h.2⟩

/-! ## Documents -/

/-- **Documents.** The node of an object that is a document. -/
theorem ofTokens?_object {m : String × Json} {ms : List (String × Json)}
    (h : Fits depthLimit (.object (m :: ms))) :
    Node.ofTokens? (valueTokens (.object (m :: ms))) = some (.ofJson (.object (m :: ms))) := by
  obtain ⟨size, hread⟩ := builds_value (.object (m :: ms)) h.regular
    (by decide : Place.block ≠ .flow) (Nat.lt_succ_of_le h.depth)
    (r := { tokens := valueTokens (.object (m :: ms)), spaces := [] }) (List.append_nil _).symm
  have htokens : valueTokens (.object (m :: ms)) =
      .mappingStart :: (membersTokens (m :: ms) ++ [.blockEnd]) := by
    rw [valueTokens, List.cons_append]
  have hdrop : (valueTokens (.object (m :: ms))).dropWhile (· == .documentEnd) =
      valueTokens (.object (m :: ms)) := by
    rw [htokens]
    rfl
  have hsome : (valueTokens (.object (m :: ms))).isEmpty = false := by rw [htokens]; rfl
  have hexplicit : opensExplicitly (valueTokens (.object (m :: ms))) = false := by
    rw [htokens]
    rfl
  have hblank : isBlank (valueTokens (.object (m :: ms))) = false := by rw [htokens]; rfl
  rw [Node.ofTokens?]
  simp only [hdrop, hsome, hexplicit, hblank, Bool.false_eq_true, if_false, Option.pure_def,
    Option.bind_eq_bind, Option.bind_some, documentNode, hread]
  rfl

end Reckoner.Yaml
