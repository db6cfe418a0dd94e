import FlatRecord.Proofs.Frame

/-!
# Writes that fail

A write asks its caller for one value after the other, in the order of the
placements, and stops at the first that cannot be stored.  Only when it has all
values does it look for the window, and it stores nothing before that.

* `Layout.Refused` is the answer of a caller that a write stops at: an error,
  or a value of another type than the one that is stored.
* `Layout.noted` is the same caller with a list of the placements that it was
  asked for.
* `mapM_checked_run_eq_error_iff` is the induction over the placements.  With
  its counterpart for success, `mapM_checked_run_eq_ok_iff`, it says what every
  run of a fetch is.
* `encodeM?_of_refused` and `encodeM?_of_fetched` are the two kinds of runs of
  a write.  The second goes on to `put?`, whose answers `exists_answer_put?` lists.
-/

namespace FlatRecord

open Bytes

namespace Layout

variable {l : Layout} {σ : Type} {get : Placement → ExceptT WriteError (StateM σ) Value}

/-! ## Answers that a write stops at -/

/-- Asked for the value of a field in state `s`, the caller goes to state `s'`
and gives nothing that can be stored there.  The write fails with `e`. -/
inductive Refused (get : Placement → ExceptT WriteError (StateM σ) Value) (p : Placement)
    (s : σ) : WriteError → σ → Prop where
  | failed {e : WriteError} {s' : σ} (hget : (get p).run.run s = (.error e, s')) :
      Refused get p s e s'
  | mismatched {v : Value} {s' : σ} (hget : (get p).run.run s = (.ok v, s'))
      (htype : v.scalar ≠ p.backing) :
      Refused get p s (.wrongType p.name p.backing v.scalar) s'

/-- The caller `get`, with a list of the placements that it was asked for. -/
def noted (get : Placement → ExceptT WriteError (StateM σ) Value) (p : Placement) :
    ExceptT WriteError (StateM (σ × List Placement)) Value :=
  ExceptT.mk fun (s, asked) =>
    let (answer, s') := (get p).run.run s
    (answer, (s', asked ++ [p]))

theorem noted_run {p : Placement} {s s' : σ} {answer : Except WriteError Value}
    (h : (get p).run.run s = (answer, s')) (asked : List Placement) :
    (noted get p).run.run (s, asked) = (answer, (s', asked ++ [p])) := by
  show (let (answer, s') := (get p).run.run s; (answer, (s', asked ++ [p]))) = _
  rw [h]

theorem Refused.noted {p : Placement} {s s' : σ} {e : WriteError} (h : Refused get p s e s')
    (asked : List Placement) :
    Refused (noted get) p (s, asked) e (s', asked ++ [p]) := by
  cases h with
  | failed hget => exact .failed (noted_run hget asked)
  | mismatched hget htype => exact .mismatched (noted_run hget asked) htype

/-- A caller that hands out all values is asked once for each, in order. -/
theorem Fetched.noted {ps : List Placement} {values : List Value} {s s' : σ}
    (h : Fetched get ps s values s') (asked : List Placement) :
    Fetched (noted get) ps (s, asked) values (s', asked ++ ps) := by
  induction h generalizing asked with
  | nil s =>
    rw [List.append_nil]
    exact .nil _
  | @cons p ps v values s s₁ s' hget htype hrest ih =>
    have hrest' := ih (asked ++ [p])
    rw [List.append_assoc, List.singleton_append] at hrest'
    exact .cons (noted_run hget asked) htype hrest'

/-! ## Fetching -/

/-- Two steps fail together if the first fails, or the second after it. -/
theorem bind_run_eq_error_iff {α β : Type} {x : ExceptT WriteError (StateM σ) α}
    {f : α → ExceptT WriteError (StateM σ) β} {e : WriteError} {s s' : σ} :
    (x >>= f).run.run s = (.error e, s') ↔
      x.run.run s = (.error e, s') ∨
        ∃ a s₁, x.run.run s = (.ok a, s₁) ∧ (f a).run.run s₁ = (.error e, s') := by
  rw [bind_run]
  rcases x.run.run s with ⟨e' | a, s₁⟩
  · -- The two sides speak of results of different types.
    constructor
    · intro h
      cases h
      exact .inl rfl
    · rintro (h | ⟨_, _, h, _⟩)
      · cases h
        rfl
      · exact nomatch h
  · constructor
    · exact fun h => .inr ⟨a, s₁, rfl, h⟩
    · rintro (h | ⟨a', s₁', heq, h⟩)
      · exact nomatch h
      · cases heq
        exact h

theorem checked_run_eq_error_iff {p : Placement} {e : WriteError} {s s' : σ} :
    (checked get p).run.run s = (.error e, s') ↔ Refused get p s e s' := by
  unfold checked
  rw [bind_run_eq_error_iff]
  constructor
  · rintro (hget | ⟨v, s₁, hget, hv⟩)
    · exact .failed hget
    · split at hv
      · exact nomatch hv
      · next htype =>
        cases hv
        exact .mismatched hget htype
  · rintro (hget | ⟨hget, htype⟩)
    · exact .inl hget
    · refine .inr ⟨_, _, hget, ?_⟩
      rw [if_neg htype]
      rfl

/-- Fetching fails at the first placement that is refused, after values were
handed out for all those before it. -/
theorem mapM_checked_run_eq_error_iff {ps : List Placement} {e : WriteError} {s s' : σ} :
    (ps.mapM (checked get)).run.run s = (.error e, s') ↔
      ∃ done p rest values s₁, ps = done ++ p :: rest ∧ Fetched get done s values s₁ ∧
        Refused get p s₁ e s' := by
  induction ps generalizing s with
  | nil =>
    constructor
    · exact fun h => nomatch h
    · rintro ⟨done, p, rest, _, _, h, _⟩
      simp at h
  | cons p ps ih =>
    rw [List.mapM_cons, bind_run_eq_error_iff, checked_run_eq_error_iff]
    constructor
    · rintro (hp | ⟨v, s₁, hv, hrest⟩)
      · exact ⟨[], p, ps, [], s, rfl, .nil s, hp⟩
      · obtain ⟨hget, htype⟩ := checked_run_eq_ok_iff.mp hv
        rcases bind_run_eq_error_iff.mp hrest with hps | ⟨_, _, _, hpure⟩
        · obtain ⟨done, q, rest, values, s₂, rfl, hdone, hq⟩ := ih.mp hps
          exact ⟨p :: done, q, rest, v :: values, s₂, rfl, .cons hget htype hdone, hq⟩
        · exact nomatch hpure
    · rintro ⟨done, q, rest, values, s₂, heq, hdone, hq⟩
      cases hdone with
      | nil =>
        obtain ⟨rfl, rfl⟩ := List.cons.inj heq
        exact .inl hq
      | cons hget htype hdone =>
        obtain ⟨rfl, rfl⟩ := List.cons.inj heq
        refine .inr ⟨_, _, checked_run_eq_ok_iff.mpr ⟨hget, htype⟩, ?_⟩
        exact bind_run_eq_error_iff.mpr (.inl (ih.mpr ⟨_, _, _, _, _, rfl, hdone, hq⟩))

/-- A caller hands out all values, or there is a first placement that it
refuses. -/
theorem fetched_or_refused (get : Placement → ExceptT WriteError (StateM σ) Value)
    (ps : List Placement) (s : σ) :
    (∃ values s', Fetched get ps s values s') ∨
      ∃ done p rest values s₁ e s', ps = done ++ p :: rest ∧ Fetched get done s values s₁ ∧
        Refused get p s₁ e s' := by
  rcases hrun : (ps.mapM (checked get)).run.run s with ⟨e | values, s'⟩
  · obtain ⟨done, p, rest, values, s₁, h⟩ := mapM_checked_run_eq_error_iff.mp hrun
    exact .inr ⟨done, p, rest, values, s₁, e, s', h⟩
  · exact .inl ⟨values, s', mapM_checked_run_eq_ok_iff.mp hrun⟩

/-! ## Writing -/

/-- A write that is refused a value ends there, whatever the buffer is. -/
theorem encodeM?_of_refused {done rest : List Placement} {p : Placement} {values : List Value}
    {s s₁ s' : σ} {e : WriteError} (hps : l.placements = done ++ p :: rest)
    (hdone : Fetched get done s values s₁) (hp : Refused get p s₁ e s') (buffer : Bytes)
    (offset : Nat) :
    (l.encodeM? get buffer offset).run s = (some ⟨.error e, buffer⟩, s') := by
  have hfetch : (l.fetch get).run.run s = (.error e, s') := by
    rw [fetch_eq_mapM]
    exact mapM_checked_run_eq_error_iff.mpr ⟨done, p, rest, values, s₁, hps, hdone, hp⟩
  rw [encodeM?_run, hfetch]

/-- A write that is given all values goes on to store them. -/
theorem encodeM?_of_fetched {values : List Value} {s s' : σ}
    (h : Fetched get l.placements s values s') (buffer : Bytes) (offset : Nat) :
    (l.encodeM? get buffer offset).run s = (l.put? values buffer offset, s') := by
  have hfetch : (l.fetch get).run.run s = (.ok values, s') := by
    rw [fetch_eq_mapM]
    exact mapM_checked_run_eq_ok_iff.mpr h
  rw [encodeM?_run, hfetch]

/-- Storing fails without the window, and changes nothing then. -/
theorem put?_of_lt {buffer : Bytes} {offset : Nat} (h : buffer.length < offset + l.totalSize)
    (values : List Value) :
    l.put? values buffer offset =
      some ⟨.error (.tooShort l.totalSize (buffer.length - offset)), buffer⟩ := by
  have hslice : buffer.slice? offset l.totalSize = none := if_neg (Nat.not_le.mpr h)
  unfold put?
  rw [hslice]

/-- Storing values of the right types has an answer for every buffer.  It is an
error, and changes nothing, only where the buffer does not have the window. -/
theorem exists_answer_put? (hl : l.WellFormed) {values : List Value} (hv : l.Fits values)
    (buffer : Bytes) (offset : Nat) :
    ∃ w, l.put? values buffer offset = some w ∧
      if offset + l.totalSize ≤ buffer.length then w.result = .ok ()
      else w = ⟨.error (.tooShort l.totalSize (buffer.length - offset)), buffer⟩ := by
  by_cases hfit : offset + l.totalSize ≤ buffer.length
  · obtain ⟨after, hput, _⟩ := exists_put? hl hv hfit
    exact ⟨_, hput, by rw [if_pos hfit]⟩
  · exact ⟨_, put?_of_lt (Nat.lt_of_not_le hfit) values, by rw [if_neg hfit]⟩

/-- A write that fails leaves the buffer as it was. -/
theorem buffer_eq_of_encodeM?_eq_error (hl : l.WellFormed) {buffer : Bytes} {offset : Nat}
    {s s' : σ} {w : Written WriteError} {e : WriteError}
    (h : (l.encodeM? get buffer offset).run s = (some w, s')) (hw : w.result = .error e) :
    w.buffer = buffer := by
  rcases fetched_or_refused get l.placements s with
    ⟨values, s₁, hfetched⟩ | ⟨done, p, rest, values, s₁, e', s₂, hps, hdone, hp⟩
  · obtain ⟨w', hput, hanswer⟩ := exists_answer_put? hl hfetched.map_scalar buffer offset
    rw [encodeM?_of_fetched hfetched, hput, Prod.mk.injEq] at h
    obtain rfl := Option.some.inj h.1
    split at hanswer
    · exact nomatch hanswer.symm.trans hw
    · rw [hanswer]
  · rw [encodeM?_of_refused hps hdone hp, Prod.mk.injEq] at h
    obtain rfl := Option.some.inj h.1
    rfl

/-- A write asks for values in the order of the placements and ends at the first
that is refused, with its error, whatever the buffer is.  Given all values, it
fails only if the buffer does not have the window.  There is no other run, and
no run that fails changes the buffer. -/
theorem encodeM?_atomic {fields : List Field} {packing : Packing}
    (h : arrange fields packing = .ok l)
    (get : Placement → ExceptT WriteError (StateM σ) Value) (s : σ) :
    (∀ done p rest values s₁ e s', l.placements = done ++ p :: rest →
      Fetched get done s values s₁ → Refused get p s₁ e s' → ∀ buffer offset,
        (l.encodeM? get buffer offset).run s = (some ⟨.error e, buffer⟩, s') ∧
          (l.encodeM? (noted get) buffer offset).run (s, []) =
            (some ⟨.error e, buffer⟩, (s', done ++ [p]))) ∧
      (∀ values s', Fetched get l.placements s values s' → ∀ buffer offset, ∃ w,
        (l.encodeM? get buffer offset).run s = (some w, s') ∧
          (l.encodeM? (noted get) buffer offset).run (s, []) = (some w, (s', l.placements)) ∧
          if offset + l.totalSize ≤ buffer.length then w.result = .ok ()
          else w = ⟨.error (.tooShort l.totalSize (buffer.length - offset)), buffer⟩) ∧
      ((∃ values s', Fetched get l.placements s values s') ∨
        ∃ done p rest values s₁ e s', l.placements = done ++ p :: rest ∧
          Fetched get done s values s₁ ∧ Refused get p s₁ e s') ∧
      ∀ buffer offset w s' e, (l.encodeM? get buffer offset).run s = (some w, s') →
        w.result = .error e → w.buffer = buffer := by
  have hl := wellFormed_of_arrange h
  refine ⟨?_, ?_, fetched_or_refused get l.placements s, ?_⟩
  · intro done p rest values s₁ e s' hps hdone hp buffer offset
    exact ⟨encodeM?_of_refused hps hdone hp buffer offset,
      encodeM?_of_refused hps (hdone.noted []) (hp.noted done) buffer offset⟩
  · intro values s' hfetched buffer offset
    obtain ⟨w, hput, hanswer⟩ := exists_answer_put? hl hfetched.map_scalar buffer offset
    have hrun := encodeM?_of_fetched hfetched buffer offset
    have hnoted := encodeM?_of_fetched (hfetched.noted []) buffer offset
    rw [hput] at hrun hnoted
    exact ⟨w, hrun, hnoted, hanswer⟩
  · intro buffer offset w s' e hrun hw
    exact buffer_eq_of_encodeM?_eq_error hl hrun hw

/-- Hands out 258 for the number and true for the flags, but a number when it is
asked for the third time.  It counts the values that it has handed out. -/
def faltering (p : Placement) : ExceptT WriteError (StateM Nat) Value :=
  ExceptT.mk fun n =>
    (.ok (if n = 2 then .u8 7 else if p.isBool then .bool true else .u16 258), n + 1)

/-- The third value is refused in a buffer of any length, and a buffer that lacks
one byte only after all ten values. -/
theorem encodeM?_atomic_nineFlags :
    arrange nineFlags .dense = .ok nineFlagsLayout ∧
      Fetched faltering (nineFlagsLayout.placements.take 2) 0 [.u16 258, .bool true] 2 ∧
      Refused faltering ⟨"b", 9, 2, 1, .bool, 1⟩ 2 (.wrongType "b" .bool .u8) 3 ∧
      (∀ buffer offset,
        (nineFlagsLayout.encodeM? (noted faltering) buffer offset).run (0, []) =
          (some ⟨.error (.wrongType "b" .bool .u8), buffer⟩,
            (3, nineFlagsLayout.placements.take 3))) ∧
      (nineFlagsLayout.encodeM? alternating [0xaa, 0xaa, 0xaa, 0xaa] 1).run 0 =
        (some ⟨.error (.tooShort 4 3), [0xaa, 0xaa, 0xaa, 0xaa]⟩, 10) := by
  have hdone : Fetched faltering (nineFlagsLayout.placements.take 2) 0
      [.u16 258, .bool true] 2 := .cons rfl rfl (.cons rfl rfl (.nil 2))
  have hthird : (faltering ⟨"b", 9, 2, 1, .bool, 1⟩).run.run 2 = (.ok (.u8 7), 3) := rfl
  have hrefused : Refused faltering ⟨"b", 9, 2, 1, .bool, 1⟩ 2 (.wrongType "b" .bool .u8) 3 :=
    .mismatched hthird (by decide)
  have hall : ∃ values, Fetched alternating nineFlagsLayout.placements 0 values 10 :=
    ⟨_, mapM_checked_run_eq_ok_iff.mp rfl⟩
  refine ⟨arrange_nineFlags, hdone, hrefused, fun buffer offset => ?_, ?_⟩
  · obtain ⟨hstop, _⟩ := encodeM?_atomic arrange_nineFlags faltering 0
    exact (hstop _ _ (nineFlagsLayout.placements.drop 3) _ _ _ _ (by decide) hdone hrefused
      buffer offset).2
  · obtain ⟨_, hpass, _⟩ := encodeM?_atomic arrange_nineFlags alternating 0
    obtain ⟨values, hall⟩ := hall
    obtain ⟨w, hrun, _, hw⟩ := hpass values 10 hall [0xaa, 0xaa, 0xaa, 0xaa] 1
    rw [if_neg (by decide)] at hw
    rw [hrun, hw]
    rfl

end Layout

end FlatRecord
