import FlatRecord.Proofs.Json.Readers

/-!
# Trees of texts that end too early

If a text ends within a value, a part of the value's tree is read, and the part shows
where the text ended.  A reader that accepts the whole tree accepts what comes before
that place, and then finds the end of the text.

* `Node.Cut` says what is left of a tree.  `CutList` says it of lists, for the items
  of an array and the members of an object alike.
* `Waits` is the property of readers.  `Waits.bind` and `Waits.readOnce` carry it from
  a reader to those that are built from it.
* `mapM_cut` and `foldMembers_cut` are the two inductions along a list that stops.
  `waits_readArray`, `cut_of_object` and `waits_toJson` follow from them.
-/

namespace FlatRecord.Json

/-! ## Trees without their ends -/

/-- The list stops, after an item or within one. -/
inductive CutList {α : Type} (R : α → α → Prop) : List α → List α → Prop where
  | stop (xs : List α) : CutList R xs []
  | within {x y : α} (h : R x y) (xs : List α) : CutList R (x :: xs) [y]
  | next (x : α) {xs ys : List α} (h : CutList R xs ys) : CutList R (x :: xs) (x :: ys)

theorem CutList.head {α : Type} {R : α → α → Prop} {x y : α} (h : R x y ∨ y = x) (xs : List α) :
    CutList R (x :: xs) [y] := by
  rcases h with h | rfl
  · exact .within h xs
  · exact .next y (.stop xs)

namespace Node

mutual

/-- What is read of a tree if the text ends within it.  There are no numbers: what is
left of one may be another number. -/
inductive Cut : Node → Node → Prop where
  /-- Nothing is there yet. -/
  | ended (n : Node) : Cut n (.gap .ended)
  | null : Cut .null (.gap (.scalar ⟨.unexpectedEnd, .unexpectedEnd⟩))
  | boolean (b : Bool) : Cut (.boolean b) (.gap (.scalar ⟨.unexpectedEnd, .unexpectedEnd⟩))
  | string (text : Option String) :
      Cut (.string text) (.gap (.string ⟨.unexpectedEnd, .unexpectedEnd⟩))
  /-- After the bracket there might still be an item. -/
  | emptyArray : Cut (.array [] .closed) (.array [.gap .ended] (.cut .unexpectedEnd))
  | array {items left : List Node} (h : CutList Cut items left) :
      Cut (.array items .closed) (.array left (.cut .unexpectedEnd))
  | emptyObject :
      Cut (.object [] .closed) (.object [(.gap .ended, .gap .misplaced)] (.cut .unexpectedEnd))
  | object {members left : List (Node × Node)} (h : CutList CutMember members left)
      (hleft : left ≠ []) : Cut (.object members .closed) (.object left (.cut .unexpectedEnd))

/-- The text ends within the key, so there is no value, or after it. -/
inductive CutMember : Node × Node → Node × Node → Prop where
  | key {key : Node} {g : Gap} (h : Cut key (.gap g)) (value : Node) :
      CutMember (key, value) (.gap g, .gap .misplaced)
  | value (key : Node) {value left : Node} (h : Cut value left) :
      CutMember (key, value) (key, left)

end

theorem not_cut_misplaced {n : Node} : ¬ n.Cut (.gap .misplaced) :=
  fun h => nomatch h

end Node

/-! ## Readers of trees without their ends -/

variable {α β : Type}

/-- A reader that accepts a tree finds the end of the text in what is left of it. -/
def Waits (read : Node → Except Problem α) : Prop :=
  ∀ ⦃n left : Node⦄ ⦃a : α⦄, read n = .ok a → n.Cut left →
    read left = .error (.fault .unexpectedEnd)

namespace Waits

variable {read : Node → Except Problem α}

/-- What is done with a value does not matter. -/
theorem bind (h : Waits read) (f : α → Except Problem β) : Waits fun n => read n >>= f := by
  intro n left b hn hcut
  obtain ⟨a, ha, _⟩ := bind_eq_ok_iff.mp hn
  show read left >>= f = _
  rw [h ha hcut, error_bind]

theorem readOnce (h : Waits read) (name : String) (slot : Option α) :
    Waits fun n => Json.readOnce name slot (read n) := by
  cases slot with
  | some a => exact fun n left b hn => nomatch hn
  | none =>
    intro n left b hn hcut
    cases ha : read n with
    | error e => simp [ha, Json.readOnce, Except.map] at hn
    | ok a =>
      show (read left).map some = _
      rw [h ha hcut]
      rfl

end Waits

namespace Node

theorem waits_readString (expected : String) : Waits (readString expected) := by
  intro n left s h hcut
  obtain rfl := readString_eq_ok_iff.mp h
  cases hcut <;> rfl

theorem waits_readBoolean : Waits readBoolean := by
  intro n left b h hcut
  cases n with
  | boolean b => cases hcut <;> rfl
  | _ => exact nomatch h

theorem waits_readUnit : Waits readUnit := by
  intro n left u h hcut
  obtain rfl := readUnit_eq_ok_iff.mp h
  cases hcut <;> rfl

theorem waits_readKey : Waits readKey := by
  intro n left s h hcut
  obtain rfl := readKey_eq_ok_iff.mp h
  cases hcut <;> rfl

theorem waits_skip : Waits skip := by
  intro n left u _ hcut
  cases hcut <;> rfl

/-- Items are read up to the one that is cut, or up to where they stop. -/
theorem mapM_cut {R : α → α → Prop} {read : α → Except Problem β}
    (hread : ∀ ⦃x y b⦄, read x = .ok b → R x y → read y = .error (.fault .unexpectedEnd))
    {xs left : List α} (hcut : CutList R xs left) {bs : List β} (h : xs.mapM read = .ok bs)
    {γ : Type} (f : List β → Except Problem γ) :
    (do
      let bs ← left.mapM read
      (Ending.cut .unexpectedEnd).read
      f bs) = .error (.fault .unexpectedEnd) := by
  induction hcut generalizing bs f with
  | stop xs => rfl
  | within hxy xs =>
    rw [List.mapM_cons, bind_eq_ok_iff] at h
    obtain ⟨b, hb, _⟩ := h
    rw [List.mapM_cons, hread hb hxy]
    rfl
  | next x hcut ih =>
    rw [List.mapM_cons, bind_eq_ok_iff] at h
    obtain ⟨b, hb, h⟩ := h
    obtain ⟨bs, hbs, _⟩ := bind_eq_ok_iff.mp h
    rw [List.mapM_cons, hb, ok_bind, bind_assoc]
    exact ih hbs fun bs => f (b :: bs)

variable {σ : Type} {step : σ → String → Node → Except Problem σ}

/-- Members are taken up to the one that is cut, or up to where they stop. -/
theorem foldMembers_cut (hstep : ∀ s key, Waits (step s key)) {members left : List (Node × Node)}
    (hcut : CutList CutMember members left) {s s' : σ} (h : foldMembers step s members = .ok s')
    (f : σ → Except Problem β) :
    (do
      let s ← foldMembers step s left
      (Ending.cut .unexpectedEnd).read
      f s) = .error (.fault .unexpectedEnd) := by
  induction hcut generalizing s with
  | stop members => rfl
  | @within x y hxy members =>
    obtain ⟨name, hname, h⟩ := bind_eq_ok_iff.mp h
    obtain ⟨next, hnext, _⟩ := bind_eq_ok_iff.mp h
    cases hxy with
    | key hkey value =>
      rw [foldMembers, waits_readKey hname hkey]
      rfl
    | value key hvalue =>
      rw [foldMembers, hname, ok_bind, hstep s name hnext hvalue]
      rfl
  | next x hcut ih =>
    obtain ⟨name, hname, h⟩ := bind_eq_ok_iff.mp h
    obtain ⟨next, hnext, h⟩ := bind_eq_ok_iff.mp h
    rw [foldMembers, hname, ok_bind, hnext, ok_bind]
    exact ih h

/-- A reader of objects that goes through the members and then looks at the end. -/
theorem cut_of_object (hstep : ∀ s key, Waits (step s key)) {members : List (Node × Node)}
    {ending : Ending} {left : Node} (hcut : (Node.object members ending).Cut left) {s s' : σ}
    (h : foldMembers step s members = .ok s') {read : Node → Except Problem β}
    (f : σ → Except Problem β) (hended : read (.gap .ended) = .error (.fault .unexpectedEnd))
    (hread : ∀ members ending, read (.object members ending) = (do
      let s ← foldMembers step s members
      ending.read
      f s)) : read left = .error (.fault .unexpectedEnd) := by
  cases hcut with
  | ended => exact hended
  | emptyObject =>
    rw [hread]
    rfl
  | object hmembers _ =>
    rw [hread]
    exact foldMembers_cut hstep hmembers h f

theorem waits_readArray {read : Node → Except Problem α} (hread : Waits read)
    (hended : read (.gap .ended) = .error (.fault .unexpectedEnd)) : Waits (readArray read) := by
  intro n left as h hcut
  cases n with
  | array items ending =>
    obtain ⟨values, hvalues, _⟩ := bind_eq_ok_iff.mp h
    cases hcut with
    | ended => rfl
    | emptyArray => simp [readArray, hended]
    | array hitems => exact mapM_cut hread hitems hvalues pure
  | _ => cases h

theorem waits_toJson (levels : Nat) : Waits (toJson levels) := by
  induction levels with
  | zero =>
    intro n left v h hcut
    cases hcut with
    | emptyArray | array _ | emptyObject | object _ _ => exact nomatch h
    | _ => rfl
  | succ levels ih =>
    intro n left v h hcut
    cases hcut with
    | emptyArray => cases levels <;> rfl
    | array hitems =>
      obtain ⟨values, hvalues, _⟩ := bind_eq_ok_iff.mp h
      exact mapM_cut ih hitems hvalues _
    | object hmembers _ =>
      obtain ⟨values, hvalues, _⟩ := bind_eq_ok_iff.mp h
      refine mapM_cut ?_ hmembers hvalues _
      rintro ⟨key, value⟩ y m hm hxy
      obtain ⟨rfl, hv⟩ : key = .string (some m.1) ∧ value.toJson levels = .ok m.2 :=
        (@readMember_eq_ok_iff _ (toJson levels) (key, value) m).mp hm
      cases hxy with
      | key hkey _ => simp [waits_readKey rfl hkey]
      | value _ hvalue => simp [ih hv hvalue]
    | _ => rfl

end Node

end FlatRecord.Json
