import FlatRecord.Proofs.Transfer

/-!
# What a write does to a buffer

A write stores the values of all placed fields one after the other.  Since the
placements share no bit, the stores do not disturb each other, and each bit of
the buffer is known after the write.

* `Layout.Stored` is the relation between a buffer and the one that a write of
  given values leaves: owned bits hold the values, and all others are kept.
* `exists_storeFields?` is the induction over the stores.  It carries the bits
  that are owned by the fields still to come, which no earlier store changes.
* `exists_storeAll?` and `exists_put?` are the same for a window and for a
  buffer.  Both say that the write succeeds.
* `Layout.Fetched` follows a caller that hands out the values one by one and
  may change a state of its own.  `encodeM?_run_eq_ok_iff` takes a successful
  write apart into fetching and storing.
-/

namespace FlatRecord

open Bytes

namespace Layout

/-! ## Values that fit -/

/-- There is one value for each placement, and each has the type stored there. -/
def Fits (l : Layout) (values : List Value) : Prop :=
  values.map Value.scalar = l.placements.map Placement.backing

namespace Fits

variable {l : Layout} {values : List Value}

theorem length_eq (h : l.Fits values) : l.placements.length = values.length := by
  have := congrArg List.length h
  simpa using this.symm

theorem map_fst_zip (h : l.Fits values) :
    (l.placements.zip values).map Prod.fst = l.placements :=
  List.map_fst_zip (Nat.le_of_eq h.length_eq)

theorem scalar_eq (h : l.Fits values) {p : Placement} {v : Value}
    (hpv : (p, v) ∈ l.placements.zip values) : v.scalar = p.backing := by
  obtain ⟨k, hk, hget⟩ := List.mem_iff_getElem.mp hpv
  rw [List.getElem_zip, Prod.mk.injEq] at hget
  have hp : k < l.placements.length := by
    rw [List.length_zip] at hk
    omega
  have hv : k < values.length := h.length_eq ▸ hp
  have hmap : (values.map Value.scalar)[k]? = (l.placements.map Placement.backing)[k]? :=
    congrArg (fun xs : List Scalar => xs[k]?) h
  rw [List.getElem?_map, List.getElem?_map, List.getElem?_eq_getElem hp,
    List.getElem?_eq_getElem hv] at hmap
  rw [← hget.1, ← hget.2]
  exact Option.some.inj hmap

theorem exists_mem_zip (h : l.Fits values) {p : Placement} (hp : p ∈ l.placements) :
    ∃ v, (p, v) ∈ l.placements.zip values := by
  rw [← h.map_fst_zip] at hp
  obtain ⟨⟨_, v⟩, hpv, rfl⟩ := List.mem_map.mp hp
  exact ⟨v, hpv⟩

end Fits

/-! ## The bits after a write -/

/-- The bits that a write of `values` at `offset` leaves. -/
structure Stored (l : Layout) (values : List Value) (offset : Nat) (before after : Bytes) :
    Prop where
  length_eq : after.length = before.length
  owned : ∀ p v, (p, v) ∈ l.placements.zip values → ∀ i j, p.Owns l.packing i j →
    after.bitAt? (offset + i) j =
      p.storedBit l.packing v i j (before.bitAt? (offset + i) j)
  unowned : ∀ i j, (∀ p ∈ l.placements, ¬ p.Owns l.packing i j) →
    after.bitAt? (offset + i) j = before.bitAt? (offset + i) j
  below : ∀ i j, i < offset → after.bitAt? i j = before.bitAt? i j

/-- Stores of fields that share no bit all succeed.  Each changes the bits of
its own field only, so every field finds its bits as they were at the start. -/
theorem exists_storeFields? {packing : Packing} {fields : List (Placement × Value)}
    {window : Bytes} (hin : ∀ f ∈ fields, f.1.Within window.length)
    (htype : ∀ f ∈ fields, f.2.scalar = f.1.backing)
    (hdisjoint : fields.Pairwise fun f g =>
      ∀ i j, f.1.Owns packing i j → ¬ g.1.Owns packing i j) :
    ∃ result,
      fields.foldlM (fun window (p, v) =>
        (Transfer.ofPlacement packing p).store? window p.offset v) window = some result ∧
      result.length = window.length ∧
      (∀ f ∈ fields, ∀ i j, f.1.Owns packing i j →
        result.bitAt? i j = f.1.storedBit packing f.2 i j (window.bitAt? i j)) ∧
      ∀ i j, (∀ f ∈ fields, ¬ f.1.Owns packing i j) →
        result.bitAt? i j = window.bitAt? i j := by
  induction fields generalizing window with
  | nil => exact ⟨window, rfl, rfl, fun f hf => absurd hf List.not_mem_nil, fun _ _ _ => rfl⟩
  | cons f fields ih =>
    obtain ⟨p, v⟩ := f
    obtain ⟨hfirst, hrest⟩ := List.pairwise_cons.mp hdisjoint
    have hf : (p, v) ∈ (p, v) :: fields := List.mem_cons_self
    obtain ⟨next, hnext, hlen, hbits⟩ :=
      Placement.exists_store? packing (hin _ hf) (htype _ hf)
    obtain ⟨result, hresult, hlen', howned, hunowned⟩ :=
      ih (fun g hg => hlen ▸ hin g (List.mem_cons_of_mem _ hg))
        (fun g hg => htype g (List.mem_cons_of_mem _ hg)) hrest
    refine ⟨result, ?_, hlen'.trans hlen, ?_, ?_⟩
    · rw [List.foldlM_cons]
      show ((Transfer.ofPlacement packing p).store? window p.offset v).bind _ = some result
      rw [hnext]
      exact hresult
    · intro g hg i j hown
      rcases List.mem_cons.mp hg with rfl | hg
      · rw [hunowned i j fun g' hg' => hfirst g' hg' i j hown, hbits, if_pos hown]
      · have hnot : ¬ p.Owns packing i j := fun h => hfirst g hg i j h hown
        rw [howned g hg i j hown, hbits, if_neg hnot]
    · intro i j hnone
      rw [hunowned i j fun g hg => hnone g (List.mem_cons_of_mem _ hg), hbits,
        if_neg (hnone _ hf)]

variable {l : Layout} {values : List Value}

/-- Values that fit can be stored in a window. -/
theorem exists_storeAll? (hl : l.WellFormed) (hv : l.Fits values) {window : Bytes}
    (hw : window.length = l.totalSize) :
    ∃ result, l.storeAll? values window = some result ∧ l.Stored values 0 window result := by
  have hfst : ∀ f ∈ l.placements.zip values, f.1 ∈ l.placements :=
    fun f hf => (List.of_mem_zip hf).1
  have hdisjoint : (l.placements.zip values).Pairwise fun f g =>
      ∀ i j, f.1.Owns l.packing i j → ¬ g.1.Owns l.packing i j := by
    have h := hl.disjoint
    rw [← hv.map_fst_zip] at h
    exact List.pairwise_map.mp h
  obtain ⟨result, hresult, hlen, howned, hunowned⟩ :=
    exists_storeFields? (fun f hf => hw ▸ hl.within f.1 (hfst f hf))
      (fun f hf => hv.scalar_eq hf) hdisjoint
  refine ⟨result, hresult, hlen, ?_, ?_, fun i j hi => absurd hi (Nat.not_lt_zero i)⟩
  · intro p v hpv i j hown
    rw [Nat.zero_add]
    exact howned (p, v) hpv i j hown
  · intro i j hnone
    rw [Nat.zero_add]
    exact hunowned i j fun f hf => hnone f.1 (hfst f hf)

/-- Values that fit can be stored in a buffer that has the window. -/
theorem exists_put? (hl : l.WellFormed) (hv : l.Fits values) {buffer : Bytes} {offset : Nat}
    (hfit : offset + l.totalSize ≤ buffer.length) :
    ∃ after, l.put? values buffer offset = some ⟨.ok (), after⟩ ∧
      l.Stored values offset buffer after := by
  obtain ⟨window, hwindow⟩ := exists_slice? hfit
  have hw : window.length = l.totalSize := length_of_slice? hwindow
  obtain ⟨result, hresult, hstored⟩ := exists_storeAll? hl hv hw
  have hlen : result.length = l.totalSize := hstored.length_eq.trans hw
  obtain ⟨after, hafter⟩ : ∃ after, buffer.splice? offset result = some after :=
    exists_splice? (by omega)
  -- A bit of the window has its place in the buffer before and after.
  have hinside : ∀ i j, i < l.totalSize →
      after.bitAt? (offset + i) j = result.bitAt? (0 + i) j ∧
        window.bitAt? (0 + i) j = buffer.bitAt? (offset + i) j := by
    intro i j hi
    rw [Nat.zero_add]
    exact ⟨bitAt?_of_splice? hafter (by omega) j, bitAt?_of_slice? hwindow hi j⟩
  refine ⟨after, ?_, length_of_splice?_eq_some hafter, ?_, ?_, ?_⟩
  · simp only [put?, hwindow, hresult, hafter, bind, Option.bind, pure]
  · intro p v hpv i j hown
    have hi := (hl.lt_of_owns (List.of_mem_zip hpv).1 hown).1
    obtain ⟨hin, hout⟩ := hinside i j hi
    rw [hin, hstored.owned p v hpv i j hown, hout]
  · intro i j hnone
    by_cases hi : i < l.totalSize
    · obtain ⟨hin, hout⟩ := hinside i j hi
      rw [hin, hstored.unowned i j hnone, hout]
    · exact bitAt?_of_splice?_of_outside hafter (by omega) j
  · intro i j hi
    exact bitAt?_of_splice?_of_outside hafter (.inl hi) j

/-! ## Fetching the values -/

/-- A value as it is handed out, if it has the type stored. -/
def checked {m : Type → Type} [Monad m] (get : Placement → ExceptT WriteError m Value)
    (p : Placement) : ExceptT WriteError m Value := do
  let v ← get p
  if v.scalar = p.backing then pure v
  else throw (.wrongType p.name p.backing v.scalar)

theorem fetch_eq_mapM {m : Type → Type} [Monad m] (l : Layout)
    (get : Placement → ExceptT WriteError m Value) :
    l.fetch get = l.placements.mapM (checked get) := rfl

/-- Actions that all return a value return the list of the values. -/
theorem mapM_eq_pure {m : Type → Type} [Monad m] [LawfulMonad m] {α β : Type} {f : α → m β}
    {g : α → β} {xs : List α} (h : ∀ x ∈ xs, f x = pure (g x)) :
    xs.mapM f = pure (xs.map g) := by
  induction xs with
  | nil => rfl
  | cons x xs ih =>
    rw [List.mapM_cons, h x List.mem_cons_self, pure_bind,
      ih fun y hy => h y (List.mem_cons_of_mem x hy), pure_bind, List.map_cons]

/-- A value of the type stored is handed on as it is. -/
theorem checked_eq_pure {m : Type → Type} [Monad m] [LawfulMonad m]
    {get : Placement → ExceptT WriteError m Value} {p : Placement} {v : Value}
    (hget : get p = pure v) (htype : v.scalar = p.backing) : checked get p = pure v := by
  unfold checked
  rw [hget, pure_bind, if_pos htype]

/-- A write of values that have the types stored is a write of these values. -/
theorem encode?_eq_put? {get : Placement → Except WriteError Value} {f : Placement → Value}
    (hget : ∀ p ∈ l.placements, get p = .ok (f p))
    (htype : ∀ p ∈ l.placements, (f p).scalar = p.backing) (buffer : Bytes) (offset : Nat) :
    l.encode? get buffer offset = l.put? (l.placements.map f) buffer offset := by
  have hfetch : l.fetch (m := Id) (fun p => ExceptT.mk (pure (get p))) =
      pure (l.placements.map f) := by
    rw [fetch_eq_mapM]
    refine mapM_eq_pure fun p hp => checked_eq_pure ?_ (htype p hp)
    rw [hget p hp]
    rfl
  unfold encode? encodeM?
  rw [hfetch]
  rfl

theorem fits_map {f : Placement → Value} (htype : ∀ p ∈ l.placements, (f p).scalar = p.backing) :
    l.Fits (l.placements.map f) := by
  rw [Fits, List.map_map]
  exact List.map_congr_left htype

/-- The value computed for a placement is its value in the list. -/
theorem mem_zip_map {f : Placement → Value} {p : Placement} (hp : p ∈ l.placements) :
    (p, f p) ∈ l.placements.zip (l.placements.map f) := by
  rw [← List.map_prod_left_eq_zip]
  exact List.mem_map.mpr ⟨p, hp, rfl⟩

/-- A caller hands out values for placements in order, each of the type stored
there, and goes from its state `s` to `s'`. -/
inductive Fetched {σ : Type} (get : Placement → ExceptT WriteError (StateM σ) Value) :
    List Placement → σ → List Value → σ → Prop where
  | nil (s : σ) : Fetched get [] s [] s
  | cons {p : Placement} {ps : List Placement} {v : Value} {values : List Value} {s s₁ s' : σ}
      (hget : (get p).run.run s = (.ok v, s₁)) (htype : v.scalar = p.backing)
      (hrest : Fetched get ps s₁ values s') : Fetched get (p :: ps) s (v :: values) s'

section Stateful

variable {σ : Type} {get : Placement → ExceptT WriteError (StateM σ) Value}

theorem Fetched.map_scalar {ps : List Placement} {s s' : σ} (h : Fetched get ps s values s') :
    values.map Value.scalar = ps.map Placement.backing := by
  induction h with
  | nil => rfl
  | cons hget htype hrest ih => rw [List.map_cons, List.map_cons, htype, ih]

/-- A second step is taken in the state that the first one leaves, unless that
one fails. -/
theorem bind_run {α β : Type} (x : ExceptT WriteError (StateM σ) α)
    (f : α → ExceptT WriteError (StateM σ) β) (s : σ) :
    (x >>= f).run.run s = match x.run.run s with
      | (.ok a, s₁) => (f a).run.run s₁
      | (.error e, s₁) => (.error e, s₁) := by
  rw [ExceptT.run_bind, StateT.run_bind]
  show (match x.run.run s with
    | (r, s₁) => _ : Id _) = _
  rcases x.run.run s with ⟨_ | _, _⟩ <;> rfl

/-- Two steps that may fail succeed together if each does. -/
theorem bind_run_eq_ok_iff {α β : Type} {x : ExceptT WriteError (StateM σ) α}
    {f : α → ExceptT WriteError (StateM σ) β} {b : β} {s s' : σ} :
    (x >>= f).run.run s = (.ok b, s') ↔
      ∃ a s₁, x.run.run s = (.ok a, s₁) ∧ (f a).run.run s₁ = (.ok b, s') := by
  rw [bind_run]
  rcases x.run.run s with ⟨e | a, s₁⟩
  · constructor
    · exact fun h => nomatch h
    · intro h
      rcases h with ⟨_, _, h, _⟩
      exact nomatch h
  · constructor
    · exact fun h => ⟨a, s₁, rfl, h⟩
    · intro h
      rcases h with ⟨a', s₁', heq, h⟩
      cases heq
      exact h

theorem pure_run_eq_ok_iff {α : Type} {a b : α} {s s' : σ} :
    (pure a : ExceptT WriteError (StateM σ) α).run.run s = (.ok b, s') ↔ a = b ∧ s = s' := by
  show ((.ok a, s) : Except WriteError α × σ) = (.ok b, s') ↔ _
  rw [Prod.mk.injEq, Except.ok.injEq]

theorem checked_run_eq_ok_iff {p : Placement} {v : Value} {s s' : σ} :
    (checked get p).run.run s = (.ok v, s') ↔
      (get p).run.run s = (.ok v, s') ∧ v.scalar = p.backing := by
  unfold checked
  rw [bind_run_eq_ok_iff]
  constructor
  · intro h
    rcases h with ⟨w, s₁, hget, hw⟩
    split at hw
    · next htype =>
      obtain ⟨rfl, rfl⟩ := pure_run_eq_ok_iff.mp hw
      exact ⟨hget, htype⟩
    · exact nomatch hw
  · intro h
    rcases h with ⟨hget, htype⟩
    refine ⟨v, s', hget, ?_⟩
    rw [if_pos htype]
    rfl

/-- Fetching succeeds with the values that the caller hands out. -/
theorem mapM_checked_run_eq_ok_iff {ps : List Placement} {s s' : σ} :
    (ps.mapM (checked get)).run.run s = (.ok values, s') ↔ Fetched get ps s values s' := by
  induction ps generalizing values s with
  | nil =>
    rw [List.mapM_nil, pure_run_eq_ok_iff]
    constructor
    · intro h
      rcases h with ⟨rfl, rfl⟩
      exact .nil s
    · intro h
      cases h
      exact ⟨rfl, rfl⟩
  | cons p ps ih =>
    rw [List.mapM_cons, bind_run_eq_ok_iff]
    constructor
    · intro h
      rcases h with ⟨v, s₁, hv, h⟩
      obtain ⟨rest, s₂, hrest, hpure⟩ := bind_run_eq_ok_iff.mp h
      obtain ⟨rfl, rfl⟩ := pure_run_eq_ok_iff.mp hpure
      obtain ⟨hget, htype⟩ := checked_run_eq_ok_iff.mp hv
      exact .cons hget htype (ih.mp hrest)
    · intro h
      cases h with
      | cons hget htype hrest =>
        refine ⟨_, _, checked_run_eq_ok_iff.mpr ⟨hget, htype⟩, bind_run_eq_ok_iff.mpr ?_⟩
        exact ⟨_, _, ih.mpr hrest, rfl⟩

/-- A write fetches the values and then stores them. -/
theorem encodeM?_run (l : Layout) (get : Placement → ExceptT WriteError (StateM σ) Value)
    (buffer : Bytes) (offset : Nat) (s : σ) :
    (l.encodeM? get buffer offset).run s = match (l.fetch get).run.run s with
      | (.error e, s₁) => (some ⟨.error e, buffer⟩, s₁)
      | (.ok values, s₁) => (l.put? values buffer offset, s₁) := by
  unfold encodeM?
  rw [StateT.run_bind]
  show (match (l.fetch get).run.run s with
    | (r, s₁) => _ : Id _) = _
  rcases (l.fetch get).run.run s with ⟨_ | _, _⟩ <;> rfl

/-- A write succeeds in two steps: the caller hands out values that fit, and
they are stored in the buffer. -/
theorem encodeM?_run_eq_ok_iff {buffer after : Bytes} {offset : Nat} {s s' : σ} :
    (l.encodeM? get buffer offset).run s = (some ⟨.ok (), after⟩, s') ↔
      ∃ values, Fetched get l.placements s values s' ∧
        l.put? values buffer offset = some ⟨.ok (), after⟩ := by
  simp only [← mapM_checked_run_eq_ok_iff, ← fetch_eq_mapM]
  rw [encodeM?_run]
  rcases (l.fetch get).run.run s with ⟨e | values, s₁⟩
  · constructor
    · exact fun h => nomatch h
    · intro h
      rcases h with ⟨_, h, _⟩
      exact nomatch h
  · constructor
    · intro h
      obtain ⟨hput, rfl⟩ := Prod.mk.inj h
      exact ⟨values, rfl, hput⟩
    · intro h
      rcases h with ⟨values', heq, hput⟩
      cases heq
      show (l.put? values buffer offset, s') = _
      rw [hput]

end Stateful

/-- Storing succeeds only inside the buffer. -/
theorem le_of_put?_eq_ok {buffer after : Bytes} {offset : Nat}
    (h : l.put? values buffer offset = some ⟨.ok (), after⟩) :
    offset + l.totalSize ≤ buffer.length := by
  unfold put? at h
  split at h
  · exact nomatch h
  · next hwindow => exact le_of_slice? hwindow

/-- A write that succeeds has stored the values that it fetched. -/
theorem stored_of_encodeM? {σ : Type} (hl : l.WellFormed)
    {get : Placement → ExceptT WriteError (StateM σ) Value} {buffer after : Bytes}
    {offset : Nat} {s s' : σ}
    (h : (l.encodeM? get buffer offset).run s = (some ⟨.ok (), after⟩, s')) :
    ∃ values, Fetched get l.placements s values s' ∧ l.Fits values ∧
      offset + l.totalSize ≤ buffer.length ∧ l.Stored values offset buffer after := by
  obtain ⟨values, hfetched, hput⟩ := encodeM?_run_eq_ok_iff.mp h
  have hfit := le_of_put?_eq_ok hput
  have hv : l.Fits values := hfetched.map_scalar
  obtain ⟨after', hput', hstored⟩ := exists_put? hl hv hfit
  rw [hput] at hput'
  cases hput'
  exact ⟨values, hfetched, hv, hfit, hstored⟩

/-! ## The buffer after a write -/

namespace Stored

variable {offset : Nat} {before after : Bytes}

/-- The bytes of a field that is no flag are those of its value. -/
theorem slice?_eq (hs : l.Stored values offset before after) (hl : l.WellFormed)
    (hv : l.Fits values) (hfit : offset + l.totalSize ≤ before.length) {p : Placement} {v : Value}
    (hpv : (p, v) ∈ l.placements.zip values) (hf : ¬ p.IsFlag l.packing) :
    after.slice? (offset + p.offset) p.size = some (ofValue v) := by
  have hwithin := hl.within p (List.of_mem_zip hpv).1
  have hin := hwithin.inside
  have hlen : (ofValue v).length = p.size := by
    rw [length_ofValue, hv.scalar_eq hpv, hwithin.size_eq]
  obtain ⟨data, hdata⟩ : ∃ data, after.slice? (offset + p.offset) p.size = some data :=
    exists_slice? (by rw [hs.length_eq]; omega)
  have heq : data = ofValue v := by
    apply ext_bitAt?
    intro i j hj
    by_cases hi : i < p.size
    · have hown : p.Owns l.packing (p.offset + i) j :=
        (Placement.owns_of_not_isFlag hf).mpr ⟨by omega, by omega, hj⟩
      rw [bitAt?_of_slice? hdata hi, Nat.add_assoc, hs.owned p v hpv _ j hown,
        Placement.storedBit_of_not_isFlag hf, Nat.add_sub_cancel_left]
    · rw [bitAt?_eq_none_of_le (by rw [length_of_slice? hdata]; omega),
        bitAt?_eq_none_of_le (by omega)]
  rw [hdata, heq]

/-- The bit of a flag is its old bit or the value. -/
theorem bitAt?_eq (hs : l.Stored values offset before after) (hl : l.WellFormed)
    (hv : l.Fits values) (hfit : offset + l.totalSize ≤ before.length) {p : Placement} {v : Value}
    (hpv : (p, v) ∈ l.placements.zip values) (hf : p.IsFlag l.packing) :
    ∃ old b, v = .bool b ∧ before.bitAt? (offset + p.offset) p.bit = some old ∧
      after.bitAt? (offset + p.offset) p.bit = some (old || b) := by
  have hwithin := hl.within p (List.of_mem_zip hpv).1
  have hlt := hwithin.offset_lt
  obtain ⟨b, rfl⟩ := Placement.exists_bool_of_isFlag hf (hv.scalar_eq hpv)
  have hsome : (before.bitAt? (offset + p.offset) p.bit).isSome :=
    bitAt?_isSome_iff.mpr ⟨by omega, hwithin.bit_lt⟩
  obtain ⟨old, hold⟩ := Option.isSome_iff_exists.mp hsome
  refine ⟨old, b, rfl, hold, ?_⟩
  rw [hs.owned p _ hpv p.offset p.bit ((Placement.owns_of_isFlag hf).mpr ⟨rfl, rfl⟩), hold,
    Placement.storedBit_of_isFlag hf]
  cases b <;> rfl

/-- Nothing outside the window is changed. -/
theorem bitAt?_of_outside (hs : l.Stored values offset before after) (hl : l.WellFormed)
    {i : Nat} (hi : i < offset ∨ offset + l.totalSize ≤ i) (j : Nat) :
    after.bitAt? i j = before.bitAt? i j := by
  rcases hi with hi | hi
  · exact hs.below i j hi
  · obtain ⟨k, rfl⟩ := Nat.exists_eq_add_of_le (Nat.le_of_add_right_le hi)
    refine hs.unowned k j fun p hp hown => ?_
    have := (hl.lt_of_owns hp hown).1
    omega

end Stored

/-- A write that succeeds determines every bit of the buffer.  The length and
the bits outside the window are kept, the bytes of each field that is no flag
are those of its value, each flag is added to its bit, and the bits of the
window that belong to no field are kept. -/
theorem encodeM?_frame {fields : List Field} {packing : Packing} {l : Layout}
    (h : arrange fields packing = .ok l) {σ : Type}
    {get : Placement → ExceptT WriteError (StateM σ) Value} {buffer after : Bytes}
    {offset : Nat} {s s' : σ}
    (hok : (l.encodeM? get buffer offset).run s = (some ⟨.ok (), after⟩, s')) :
    ∃ values, Fetched get l.placements s values s' ∧
      offset + l.totalSize ≤ buffer.length ∧
      after.length = buffer.length ∧
      (∀ i j, i < offset ∨ offset + l.totalSize ≤ i → after.bitAt? i j = buffer.bitAt? i j) ∧
      (∀ p v, (p, v) ∈ l.placements.zip values → ¬ p.IsFlag packing →
        after.slice? (offset + p.offset) p.size = some (ofValue v)) ∧
      (∀ p v, (p, v) ∈ l.placements.zip values → p.IsFlag packing →
        ∃ old b, v = .bool b ∧ buffer.bitAt? (offset + p.offset) p.bit = some old ∧
          after.bitAt? (offset + p.offset) p.bit = some (old || b)) ∧
      ∀ i j, i < l.totalSize → (∀ p ∈ l.placements, ¬ p.Owns packing i j) →
        after.bitAt? (offset + i) j = buffer.bitAt? (offset + i) j := by
  have hl := wellFormed_of_arrange h
  obtain rfl := packing_of_arrange h
  obtain ⟨values, hfetched, hv, hfit, hs⟩ := stored_of_encodeM? hl hok
  refine ⟨values, hfetched, hfit, hs.length_eq, ?_, ?_, ?_, ?_⟩
  · exact fun i j hi => hs.bitAt?_of_outside hl hi j
  · exact fun p v hpv hf => hs.slice?_eq hl hv hfit hpv hf
  · exact fun p v hpv hf => hs.bitAt?_eq hl hv hfit hpv hf
  · exact fun i j _ hnone => hs.unowned i j hnone

/-- Hands out 258 for the number and true for every other flag, and counts the
values that it has handed out. -/
def alternating (p : Placement) : ExceptT WriteError (StateM Nat) Value :=
  ExceptT.mk fun n => (.ok (if p.isBool then .bool (n % 2 == 1) else .u16 258), n + 1)

/-- The flags are added to the bits of 0xaa, and the seven spare bits stay. -/
theorem encodeM?_frame_nineFlags :
    arrange nineFlags .dense = .ok nineFlagsLayout ∧
      (nineFlagsLayout.encodeM? alternating [0xaa, 0xaa, 0xaa, 0xaa, 0xaa, 0xaa] 1).run 0 =
        (some ⟨.ok (), [0xaa, 0x02, 0x01, 0xff, 0xab, 0xaa]⟩, 10) ∧
      ∃ values, Fetched alternating nineFlagsLayout.placements 0 values 10 ∧
        ∀ p v, (p, v) ∈ nineFlagsLayout.placements.zip values → ¬ p.IsFlag .dense →
          slice? [0xaa, 0x02, 0x01, 0xff, 0xab, 0xaa] (1 + p.offset) p.size =
            some (ofValue v) := by
  have hok : (nineFlagsLayout.encodeM? alternating [0xaa, 0xaa, 0xaa, 0xaa, 0xaa, 0xaa] 1).run 0 =
      (some ⟨.ok (), [0xaa, 0x02, 0x01, 0xff, 0xab, 0xaa]⟩, 10) := rfl
  obtain ⟨values, hfetched, _, _, _, hbytes, _, _⟩ := encodeM?_frame arrange_nineFlags hok
  exact ⟨arrange_nineFlags, hok, values, hfetched, hbytes⟩

end Layout

end FlatRecord
