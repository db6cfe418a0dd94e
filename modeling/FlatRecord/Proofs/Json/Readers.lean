import FlatRecord.Json.Reader
import Mathlib.Data.List.Forall2

/-!
# Readers on good trees

What the readers do where nothing goes wrong, as rewriting rules.  A proof about a
format goes through its reader with these rules and does not open the readers that
it is built from.

The rules named `eq_ok_iff` go the other way: they say what a tree is like if a
reader accepts it.
-/

namespace FlatRecord.Json

variable {α β : Type}

@[simp] theorem ok_bind (a : α) (f : α → Except Problem β) : (Except.ok a >>= f) = f a :=
  rfl

@[simp] theorem error_bind (p : Problem) (f : α → Except Problem β) :
    (Except.error p >>= f) = .error p :=
  rfl

@[simp] theorem pure_eq_ok (a : α) : (pure a : Except Problem α) = .ok a :=
  rfl

@[simp] theorem throw_eq_error (p : Problem) : (throw p : Except Problem α) = .error p :=
  rfl

/-- A reader in two steps accepts what both steps accept. -/
theorem bind_eq_ok_iff {x : Except Problem α} {f : α → Except Problem β} {b : β} :
    (x >>= f) = .ok b ↔ ∃ a, x = .ok a ∧ f a = .ok b := by
  cases x <;> simp

@[simp] theorem Ending.read_closed : Ending.closed.read = .ok () :=
  rfl

@[simp] theorem Ending.read_cut (f : Fault) : (Ending.cut f).read = .error (.fault f) :=
  rfl

theorem Ending.read_eq_ok_iff {e : Ending} : e.read = .ok () ↔ e = .closed := by
  cases e <;> simp [Ending.read]

@[simp] theorem readOnce_none (name : String) (a : α) :
    readOnce name none (.ok a) = .ok (some a) :=
  rfl

@[simp] theorem readOnce_some (name : String) (a : α) (read : Except Problem α) :
    readOnce name (some a) read = .error (.data (.repeated name)) :=
  rfl

@[simp] theorem required_some (name : String) (a : α) : required name (some a) = .ok a :=
  rfl

@[simp] theorem required_none (name : String) :
    required name (none : Option α) = .error (.data (.missing name)) :=
  rfl

@[simp] theorem readString_string (s : String) : (Json.string s).readString = .ok s :=
  rfl

namespace Node

@[simp] theorem readKey_string (s : String) : (Node.string (some s)).readKey = .ok s :=
  rfl

@[simp] theorem readString_string (expected s : String) :
    (Node.string (some s)).readString expected = .ok s :=
  rfl

@[simp] theorem readBoolean_boolean (b : Bool) : (Node.boolean b).readBoolean = .ok b :=
  rfl

@[simp] theorem toJson_string (levels : Nat) (s : String) :
    toJson levels (.string (some s)) = .ok (.string s) := by
  cases levels <;> rfl

@[simp] theorem firstItem_closed : firstItem .closed [] = .ok (none, []) :=
  rfl

@[simp] theorem firstItem_cut (f : Fault) : firstItem (.cut f) [] = .error (.fault f) :=
  rfl

@[simp] theorem firstItem_cons (ending : Ending) (n : Node) (rest : List Node) :
    firstItem ending (n :: rest) = .ok (some n, rest) :=
  rfl

@[simp] theorem lastItem_nil (ending : Ending) : lastItem ending [] = ending.read :=
  rfl

@[simp] theorem lastItem_cons (ending : Ending) (n : Node) (rest : List Node) :
    lastItem ending (n :: rest) = .error (.fault .malformed) :=
  rfl

theorem readKey_eq_ok_iff {n : Node} {s : String} : n.readKey = .ok s ↔ n = .string (some s) := by
  unfold readKey
  split <;> simp_all

theorem readString_eq_ok_iff {n : Node} {expected s : String} :
    n.readString expected = .ok s ↔ n = .string (some s) := by
  unfold readString
  split <;> simp_all

theorem readUnit_eq_ok_iff {n : Node} : n.readUnit = .ok () ↔ n = .null := by
  unfold readUnit
  split <;> simp_all

/-- A member is read if its key is a string and its value is read. -/
theorem readMember_eq_ok_iff {read : Node → Except Problem α} {m : Node × Node}
    {entry : String × α} :
    (do
      let name ← m.1.readKey
      let a ← read m.2
      pure (name, a)) = Except.ok entry ↔
    m.1 = .string (some entry.1) ∧ read m.2 = .ok entry.2 := by
  obtain ⟨name, a⟩ := entry
  simp only [bind_eq_ok_iff, readKey_eq_ok_iff, pure_eq_ok, Except.ok.injEq, Prod.mk.injEq]
  constructor
  · rintro ⟨_, hkey, _, hvalue, rfl, rfl⟩
    exact ⟨hkey, hvalue⟩
  · rintro ⟨hkey, hvalue⟩
    exact ⟨name, hkey, a, hvalue, rfl, rfl⟩

/-- A list is read if each of its items is. -/
theorem mapM_eq_ok_iff {f : α → Except Problem β} {xs : List α} {ys : List β} :
    xs.mapM f = .ok ys ↔ List.Forall₂ (fun x y => f x = .ok y) xs ys := by
  induction xs generalizing ys with
  | nil => cases ys <;> simp
  | cons x xs ih =>
    simp only [List.mapM_cons, bind_eq_ok_iff, ih]
    cases ys <;> simp [List.forall₂_cons]

variable {σ : Type} {step : σ → String → Node → Except Problem σ}

@[simp] theorem foldMembers_nil (s : σ) : foldMembers step s [] = .ok s :=
  rfl

/-- A member is taken before the members after it. -/
@[simp] theorem foldMembers_cons (s : σ) (key : String) (value : Node)
    (rest : List (Node × Node)) :
    foldMembers step s ((.string (some key), value) :: rest) =
      step s key value >>= fun s => foldMembers step s rest :=
  rfl

theorem foldMembers_append (s : σ) (first second : List (Node × Node)) :
    foldMembers step s (first ++ second) =
      foldMembers step s first >>= fun s => foldMembers step s second := by
  induction first generalizing s with
  | nil => rfl
  | cons m first ih => simp only [List.cons_append, foldMembers, ih, bind_assoc]

/-- An array whose items are trees of known values. -/
theorem readArray_map {read : Node → Except Problem α} {tree : α → Node} {values : List α}
    (h : ∀ a ∈ values, read (tree a) = .ok a) :
    readArray read (.array (values.map tree) .closed) = .ok values := by
  have hmap : (values.map tree).mapM read = .ok values := by
    induction values with
    | nil => rfl
    | cons a values ih =>
      obtain ⟨ha, hvalues⟩ := List.forall_mem_cons.mp h
      rw [List.map_cons, List.mapM_cons, ha, ok_bind, ih hvalues]
      rfl
  rw [readArray, hmap]
  rfl

end Node

end FlatRecord.Json
