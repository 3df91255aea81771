import SkewBox.Proofs.Reshape

/-!
# Refusals

A change of dimensions checks its arguments before it does anything else, and whatever it refuses it
refuses as an invalid argument.

* `Op.Refuses`: computations that fail at once, for an invalid argument.
* `Space.check_invalid`, `checkDistinct_invalid`, …: one lemma for each check of an argument.
* `Space.Lists`: the dimensions that a list of data names.
-/

namespace SkewBox

/-! ## Failures -/

namespace Op

variable {α β : Type} {W W' : Parallelotope → Prop} {E : Error → Prop} {x : Op α} {f : α → Op β}
  {P : α → Prop} {Q : β → Prop}

/-- The computation fails for an invalid argument and leaves everything as it is. -/
def Refuses (x : Op α) : Prop := ∃ e : Error, e.family = .invalidArgument ∧ ∀ r, x r = (.error e, r)

theorem refuses_throw_bind {e : Error} (invalid : e.family = .invalidArgument) :
    Refuses ((throw e : Op α) >>= f) := ⟨e, invalid, fun _ => rfl⟩

theorem refuses_lift {y : Except Error α} (refused : ∀ a, y ≠ .ok a)
    (invalid : ∀ e, y = .error e → e.family = .invalidArgument) : Refuses (liftM y >>= f) := by
  cases y with
  | ok a => exact absurd rfl (refused a)
  | error e => exact ⟨e, invalid e rfl, fun _ => rfl⟩

theorem Refuses.lift_bind {y : Except Error α} {a : α} (ok : y = .ok a) (refuses : Refuses (f a)) :
    Refuses (liftM y >>= f) := by
  subst ok
  exact refuses

theorem refuses_forM {γ : Type} {step : γ → Op PUnit} (check : γ → Except Error PUnit)
    (checks : ∀ item, step item = liftM (check item)) {items : List γ} {f : PUnit → Op β}
    (refused : ∃ item ∈ items, check item ≠ .ok ())
    (invalid : ∀ item ∈ items, ∀ e, check item = .error e → e.family = .invalidArgument) :
    Refuses (items.forM step >>= f) := by
  induction items with
  | nil =>
    obtain ⟨_, mem, -⟩ := refused
    exact absurd mem List.not_mem_nil
  | cons item items ih =>
    cases first : check item with
    | error e =>
      refine ⟨e, invalid item (List.mem_cons_self ..) e first, fun r => ?_⟩
      show ((step item >>= fun _ => items.forM step) >>= f : Op β) r = _
      rw [checks, first]
      rfl
    | ok u =>
      -- The first item is accepted, so the refused one comes later.
      have rest : ∃ item ∈ items, check item ≠ .ok () := by
        obtain ⟨bad, mem, fails⟩ := refused
        refine ⟨bad, (List.mem_cons.mp mem).resolve_left ?_, fails⟩
        rintro rfl
        exact fails first
      obtain ⟨e, family, run⟩ := ih rest fun i hi => invalid i (List.mem_cons_of_mem _ hi)
      refine ⟨e, family, fun r => ?_⟩
      show ((step item >>= fun _ => items.forM step) >>= f : Op β) r = _
      rw [checks, first]
      exact run r

theorem Ends.exists_error (hx : Ends W W' E x fun _ => False) :
    ∃ e report, x.start = (.error e, report) ∧ E e := by
  cases hx.yields_or_error with
  | inl yields =>
    obtain ⟨-, -, -, absurd⟩ := yields
    exact absurd.elim
  | inr failed => exact failed

end Op

/-! ## Checks -/

theorem Space.check_invalid {s : Space} {datum : Datum} {e : Error} (h : s.check datum = .error e) :
    e.family = .invalidArgument := by
  unfold check at h
  split at h
  · split at h
    · cases h
    · cases h
      rfl
  · cases h
    rfl

theorem mapM_eq_error {ε α β : Type} {f : α → Except ε β} {items : List α} {e : ε}
    (h : items.mapM f = .error e) : ∃ item ∈ items, f item = .error e := by
  induction items with
  | nil => cases h
  | cons item items ih =>
    rw [List.mapM_cons] at h
    cases first : f item with
    | error e' =>
      rw [first] at h
      cases h
      exact ⟨item, List.mem_cons_self .., first⟩
    | ok b =>
      rw [first] at h
      -- The first item has a result, so the error comes from the rest.
      cases rest : items.mapM f with
      | ok bs =>
        rw [rest] at h
        cases h
      | error e' =>
        rw [rest] at h
        cases h
        obtain ⟨bad, mem, fails⟩ := ih rest
        exact ⟨bad, List.mem_cons_of_mem _ mem, fails⟩

theorem Space.checkDistinct_invalid {s : Space} {data : List Datum} {e : Error}
    (h : s.checkDistinct data = .error e) : e.family = .invalidArgument := by
  unfold checkDistinct at h
  cases dims : data.mapM s.check with
  | error e' =>
    rw [dims] at h
    cases h
    obtain ⟨_, -, fails⟩ := mapM_eq_error dims
    exact check_invalid fails
  | ok ds =>
    rw [dims, ok_bind] at h
    split at h
    · cases h
    · cases h
      rfl

/-- The data name these dimensions of the space, none of them twice. -/
def Space.Lists (s : Space) (data : List Datum) (dims : List ℕ) : Prop :=
  data = dims.map (fun d : ℕ => .int d) ∧ dims.Nodup ∧ ∀ d ∈ dims, d < s.size

theorem Space.lists_iff {s : Space} {data : List Datum} {dims : List ℕ} :
    s.Lists data dims ↔ s.checkDistinct data = .ok dims := checkDistinct_eq_ok.symm

namespace Parallelotope

theorem checkInsertion_invalid {s : Space} {c : Change} {i : ℕ} {pos : ℤ} {e : Error}
    (h : checkInsertion s c i pos = .error e) : e.family = .invalidArgument := by
  unfold checkInsertion at h
  dsimp only at h
  split at h
  · cases h
    rfl
  · split at h
    · cases h
      rfl
    · cases h

theorem spaceAfter_invalid {s : Space} {c : Change} {ds : List ℕ} {e : Error}
    (h : spaceAfter s c ds = .error e) : e.family = .invalidArgument := by
  unfold spaceAfter at h
  by_cases announced : ds.countP (s.isInt ·) = c.ints
  · simp only [announced, ne_eq, not_true_eq_false, if_false, Space.ofCounts] at h
    split at h
    · cases h
      rfl
    · cases h
  · simp only [announced, ne_eq, not_false_eq_true, if_true] at h
    cases h
    rfl

theorem Restricts.space_eq {K : Type*} [Field K] [LinearOrder K] {a a' b b' : Parallelotope} {c : Change}
    {ds ds' : List ℕ} (first : a.Restricts True c K ds b) (second : a'.Restricts True c K ds' b')
    (same : a.space = a'.space) : b.space = b'.space := by
  obtain rfl : ds = ds' := (Nat.cast_injective (R := ℤ)).list_map (first.dims.symm.trans second.dims)
  have ints := first.ints
  have size := first.size
  have ints' := second.ints
  have size' := second.size
  rw [← same] at ints' size'
  simp only [Space.size] at size size'
  obtain ⟨⟨i, r⟩, _⟩ := b
  obtain ⟨⟨i', r'⟩, _⟩ := b'
  simp only at *
  obtain rfl : i = i' := by omega
  obtain rfl : r = r' := by omega
  rfl

end Parallelotope

end SkewBox
