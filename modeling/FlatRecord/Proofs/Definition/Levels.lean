import FlatRecord.Definition.Reader
import FlatRecord.Proofs.Json.Readers
import FlatRecord.Proofs.Json.Rendering

/-!
# Readers at different depths

A value that is kept whole may only be so deep, and how deep depends on where it
stands.  If its containers do not lie deeper in each other than is allowed in two
places, it is read in the same way in both.

`NestsWithin` says how deep containers lie.  `Node.toJson_eq_ok_iff` says which trees
are kept whole.  The lemmas after it follow the readers outwards: whole values, types,
fields, lists of fields.  Each adds a level.
-/

namespace FlatRecord

namespace Json

namespace Node

/-- Containers lie at most `levels` deep in each other. -/
def NestsWithin : (levels : Nat) → Node → Prop
  | 0, array .. | 0, object .. => False
  | levels + 1, array items _ => ∀ n ∈ items, NestsWithin levels n
  | levels + 1, object members _ => ∀ m ∈ members, NestsWithin levels m.2
  | _, _ => True

theorem NestsWithin.mono {k levels : Nat} (hk : k ≤ levels) {n : Node} (h : n.NestsWithin k) :
    n.NestsWithin levels := by
  induction k generalizing levels n with
  | zero =>
    cases n with
    | array items ending => exact absurd h id
    | object members ending => exact absurd h id
    | _ => cases levels <;> exact trivial
  | succ k ih =>
    obtain ⟨levels, rfl⟩ : ∃ m, levels = m + 1 := ⟨levels - 1, by omega⟩
    cases n with
    | array items ending => exact fun n hn => ih (by omega) (h n hn)
    | object members ending => exact fun m hm => ih (by omega) (h m hm)
    | _ => exact trivial

/-! ### Trees that are kept whole -/

/-- Each node is the tree beside it and has a property. -/
theorem forall₂_tree_iff {β ν : Type} {tree : β → ν} {P : ν → Prop} {ns : List ν} {vs : List β} :
    List.Forall₂ (fun n v => n = tree v ∧ P n) ns vs ↔ ns = vs.map tree ∧ ∀ n ∈ ns, P n := by
  induction ns generalizing vs with
  | nil => cases vs <;> simp
  | cons n ns ih =>
    cases vs with
    | nil => simp
    | cons v vs =>
      rw [List.forall₂_cons, ih, List.map_cons, List.cons.injEq, List.forall_mem_cons,
        and_and_and_comm]

/-- A tree is kept whole as a value if it is the tree of the value and not too deep. -/
theorem toJson_eq_ok_iff {levels : Nat} {n : Node} {v : Json} :
    n.toJson levels = .ok v ↔ n = v.toNode ∧ n.NestsWithin levels := by
  induction levels generalizing n v with
  | zero =>
    cases n with
    | number value => cases value <;> cases v <;> simp [toJson, toNode, NestsWithin]
    | string text => cases text <;> cases v <;> simp [toJson, toNode, NestsWithin]
    | _ => cases v <;> simp [toJson, toNode, NestsWithin]
  | succ levels ih =>
    cases n with
    | number value => cases value <;> cases v <;> simp [toJson, toNode, NestsWithin]
    | string text => cases text <;> cases v <;> simp [toJson, toNode, NestsWithin]
    | array items ending =>
      simp only [toJson, bind_eq_ok_iff, mapM_eq_ok_iff, ih, forall₂_tree_iff]
      constructor
      · rintro ⟨values, ⟨rfl, hitems⟩, ⟨⟩, hending, ⟨⟩⟩
        rw [Ending.read_eq_ok_iff] at hending
        exact ⟨by rw [toNode, itemNodes_eq_map, hending], hitems⟩
      · rintro ⟨hv, hitems⟩
        cases v with
        | array values =>
          rw [toNode, itemNodes_eq_map] at hv
          cases hv
          exact ⟨values, ⟨rfl, hitems⟩, (), rfl, rfl⟩
        | _ => simp [toNode] at hv
    | object members ending =>
      have hmember (m : Node × Node) (value : String × Json) :
          (do
            let name ← m.1.readKey
            let value ← toJson levels m.2
            pure (name, value) : Except Problem (String × Json)) = .ok value ↔
          m = (.string (some value.1), value.2.toNode) ∧ m.2.NestsWithin levels := by
        rw [readMember_eq_ok_iff, ih, Prod.ext_iff, and_assoc]
      rw [toJson, bind_eq_ok_iff]
      simp only [mapM_eq_ok_iff, hmember, forall₂_tree_iff]
      constructor
      · rintro ⟨values, ⟨rfl, hmembers⟩, h⟩
        obtain ⟨⟨⟩, hending, ⟨⟩⟩ := bind_eq_ok_iff.mp h
        rw [Ending.read_eq_ok_iff] at hending
        exact ⟨by rw [toNode, memberNodes_eq_map, hending], hmembers⟩
      · rintro ⟨hv, hmembers⟩
        cases v with
        | object values =>
          rw [toNode, memberNodes_eq_map] at hv
          cases hv
          exact ⟨values, ⟨rfl, hmembers⟩, rfl⟩
        | _ => simp [toNode] at hv
    | _ => cases v <;> simp [toJson, toNode, NestsWithin]

/-! ### Readers that allow different depths -/

theorem mapM_congr {α β : Type} {f g : α → Except Problem β} {xs : List α}
    (h : ∀ x ∈ xs, f x = g x) : xs.mapM f = xs.mapM g := by
  induction xs with
  | nil => rfl
  | cons x xs ih =>
    obtain ⟨hx, hxs⟩ := List.forall_mem_cons.mp h
    rw [List.mapM_cons, List.mapM_cons, hx, ih hxs]

theorem foldMembers_congr {σ : Type} {step step' : σ → String → Node → Except Problem σ}
    {members : List (Node × Node)} (h : ∀ m ∈ members, ∀ s key, step s key m.2 = step' s key m.2)
    (s : σ) : foldMembers step s members = foldMembers step' s members := by
  induction members generalizing s with
  | nil => rfl
  | cons m members ih =>
    obtain ⟨hm, hmembers⟩ := List.forall_mem_cons.mp h
    simp only [foldMembers, hm, ih hmembers]

theorem toJson_of_nestsWithin_zero {n : Node} (h : n.NestsWithin 0) (levels : Nat) :
    toJson levels n = toJson 0 n := by
  cases levels with
  | zero => rfl
  | succ levels =>
    cases n with
    | array items ending => exact absurd h id
    | object members ending => exact absurd h id
    | number value => cases value <;> rfl
    | string text => cases text <;> rfl
    | _ => rfl

/-- Levels beyond those that a value needs make no difference. -/
theorem toJson_of_nestsWithin {k levels levels' : Nat} (hlevels : k ≤ levels)
    (hlevels' : k ≤ levels') {n : Node} (h : n.NestsWithin k) :
    toJson levels n = toJson levels' n := by
  induction k generalizing levels levels' n with
  | zero => rw [toJson_of_nestsWithin_zero h levels, toJson_of_nestsWithin_zero h levels']
  | succ k ih =>
    obtain ⟨levels, rfl⟩ : ∃ m, levels = m + 1 := ⟨levels - 1, by omega⟩
    obtain ⟨levels', rfl⟩ : ∃ m, levels' = m + 1 := ⟨levels' - 1, by omega⟩
    have hinner {n : Node} (h : n.NestsWithin k) : toJson levels n = toJson levels' n :=
      ih (by omega) (by omega) h
    have hscalar {n : Node} (h : n.NestsWithin 0) :
        toJson (levels + 1) n = toJson (levels' + 1) n := by
      rw [toJson_of_nestsWithin_zero h, toJson_of_nestsWithin_zero h (levels' + 1)]
    cases n with
    | array items ending => rw [toJson, toJson, mapM_congr fun n hn => hinner (h n hn)]
    | object members ending =>
      rw [toJson, toJson]
      refine congrArg (· >>= _) (mapM_congr fun m hm => ?_)
      simp only [hinner (h m hm)]
    | _ => exact hscalar trivial

end Node

end Json

open Json (Node)

variable {k levels levels' : Nat} {n : Node}

theorem TypeDef.ofNode_of_nestsWithin (hlevels : k ≤ levels) (hlevels' : k ≤ levels')
    (h : n.NestsWithin (k + 1)) : ofNode levels n = ofNode levels' n := by
  have hinner {n : Node} (h : n.NestsWithin k) : n.toJson levels = n.toJson levels' :=
    Node.toJson_of_nestsWithin hlevels hlevels' h
  cases n with
  | array items ending =>
    cases items with
    | nil => cases ending <;> rfl
    | cons tag rest =>
      have hrest : rest.mapM (Node.toJson levels) = rest.mapM (Node.toJson levels') :=
        Node.mapM_congr fun n hn => hinner (h n (List.mem_cons_of_mem tag hn))
      simp only [ofNode, Node.firstItem, pure_bind, hrest]
  | object members ending =>
    have hmembers (read : Option TypeTag × List (String × Json)) :
        Node.foldMembers (addMember levels) read members =
          Node.foldMembers (addMember levels') read members := by
      refine Node.foldMembers_congr (fun m hm read key => ?_) read
      simp only [addMember, hinner (h m hm)]
    simp only [ofNode, hmembers]
  | _ => rfl

theorem FieldDef.ofNode_of_nestsWithin (hlevels : k ≤ levels) (hlevels' : k ≤ levels')
    (h : n.NestsWithin (k + 2)) : ofNode levels n = ofNode levels' n := by
  have htype {n : Node} (h : n.NestsWithin (k + 1)) :
      TypeDef.ofNode levels n = TypeDef.ofNode levels' n :=
    TypeDef.ofNode_of_nestsWithin hlevels hlevels' h
  cases n with
  | array items ending =>
    match items with
    | [] => cases ending <;> rfl
    | [name] =>
      cases ending <;> simp only [ofNode, Node.firstItem, pure_bind] <;> rfl
    | name :: type :: rest =>
      have htype := htype (h type (List.mem_cons_of_mem name List.mem_cons_self))
      simp only [ofNode, Node.firstItem, pure_bind, htype]
  | object members ending =>
    have hmembers (d : Draft) :
        Node.foldMembers (Draft.add levels) d members =
          Node.foldMembers (Draft.add levels') d members := by
      refine Node.foldMembers_congr (fun m hm d key => ?_) d
      simp only [Draft.add, htype (h m hm)]
    simp only [ofNode, hmembers]
  | _ => rfl

theorem Definition.readFields_of_nestsWithin (hlevels : k ≤ levels) (hlevels' : k ≤ levels')
    (h : n.NestsWithin (k + 3)) : readFields levels n = readFields levels' n := by
  cases n with
  | array items ending =>
    have hitems : items.mapM (FieldDef.ofNode levels) = items.mapM (FieldDef.ofNode levels') :=
      Node.mapM_congr fun n hn => FieldDef.ofNode_of_nestsWithin hlevels hlevels' (h n hn)
    simp only [readFields, Node.readArray, hitems]
  | _ => simp only [readFields, Node.readArray]

end FlatRecord
