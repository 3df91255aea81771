import Mathlib.Tactic
import SkewBox.Op

/-!
# Outcomes of operations

Rules for reasoning about computations that may fail and keep a report.  What matters of the
report is the content that it leaves in the first operand.

* `ok_bind`, `bind_eq_ok`, `foldlM_ok_induction`, `mapM_eq_ok`: computations in `Except`.
* `foldl_choose_mem`, `foldl_max_isGreatest`: folds that choose one of their entries.
* `Op.Meets`: whether the computation may fail, what it returns and what it leaves.
* `Op.Ends`: the same, with the causes of failures.
* `Op.Meets.bind`, `pure`, `lift`, `foldlM`, `mapM`, `forM`: one rule for each way to compose.
* `Op.Yields`: a computation from the start that returns.
* `Op.Leaves`: computations that leave in the first operand what they return.
* `Op.put_meets`, `move_meets`, `aside_meets`, …: one rule for each primitive operation.
-/

namespace SkewBox

/-! ## Computations that may fail -/

section Except

variable {ε α β : Type}

@[simp] theorem ok_bind (a : α) (f : α → Except ε β) : (Except.ok a >>= f) = f a := rfl

@[simp] theorem error_bind (e : ε) (f : α → Except ε β) :
    (Except.error e >>= f) = Except.error e := rfl

theorem bind_eq_ok {x : Except ε α} {f : α → Except ε β} {b : β} :
    (x >>= f) = .ok b ↔ ∃ a, x = .ok a ∧ f a = .ok b := by
  cases x with
  | error e => simp
  | ok a => simp

theorem foldlM_ok_induction {step : α → β → Except ε α} {items : List β} {a a' : α}
    (Inv : α → Prop) (start : Inv a)
    (next : ∀ item ∈ items, ∀ a a', Inv a → step a item = .ok a' → Inv a')
    (run : items.foldlM step a = .ok a') : Inv a' := by
  induction items generalizing a with
  | nil =>
    obtain rfl : a = a' := by simpa [pure, Except.pure] using run
    exact start
  | cons item items ih =>
    rw [List.foldlM_cons, bind_eq_ok] at run
    obtain ⟨b, first, rest⟩ := run
    exact ih (next item (List.mem_cons_self ..) a b start first)
      (fun i hi => next i (List.mem_cons_of_mem _ hi)) rest

theorem foldlM_some_induction {step : α → β → Option α} {items : List β} {a a' : α}
    (Inv : α → Prop) (start : Inv a)
    (next : ∀ item ∈ items, ∀ a a', Inv a → step a item = some a' → Inv a')
    (run : items.foldlM step a = some a') : Inv a' := by
  induction items generalizing a with
  | nil => exact Option.some.inj run ▸ start
  | cons item items ih =>
    rw [List.foldlM_cons] at run
    obtain ⟨b, first, rest⟩ := Option.bind_eq_some_iff.mp run
    exact ih (next item (List.mem_cons_self ..) a b start first)
      (fun i hi => next i (List.mem_cons_of_mem _ hi)) rest

theorem mapM_eq_ok {f : α → Except ε β} {items : List α} {results : List β} :
    items.mapM f = .ok results ↔ List.Forall₂ (fun a b => f a = .ok b) items results := by
  induction items generalizing results with
  | nil =>
    cases results with
    | nil => simp [pure, Except.pure]
    | cons b bs => simp [pure, Except.pure]
  | cons a items ih =>
    rw [List.mapM_cons, bind_eq_ok]
    constructor
    · rintro ⟨b, first, rest⟩
      obtain ⟨bs, runs, same⟩ := bind_eq_ok.mp rest
      obtain rfl : b :: bs = results := Except.ok.inj same
      exact .cons first (ih.mp runs)
    · intro each
      cases each with
      | cons first rest => exact ⟨_, first, bind_eq_ok.mpr ⟨_, ih.mpr rest, rfl⟩⟩

end Except

/-- A fold whose steps keep what they have or take the next entry ends with one of the entries. -/
theorem foldl_choose_mem {α : Type} {step : α → α → α}
    (choice : ∀ best next, step best next = best ∨ step best next = next) (rest : List α) (best : α) :
    rest.foldl step best ∈ best :: rest := by
  induction rest generalizing best with
  | nil => exact List.mem_singleton.mpr rfl
  | cons next rest ih =>
    rw [List.foldl_cons]
    have chosen := ih (step best next)
    -- The best so far is the old one or the next entry; either stands in the longer list.
    rcases choice best next with same | same <;> rw [same] at chosen ⊢
    · rcases List.mem_cons.mp chosen with first | later
      · exact List.mem_cons.mpr (.inl first)
      · exact List.mem_cons_of_mem _ (List.mem_cons_of_mem _ later)
    · exact List.mem_cons_of_mem _ chosen

theorem foldl_max_isGreatest {α : Type} [LinearOrder α] (rest : List α) (best : α) :
    IsGreatest {a | a ∈ best :: rest} (rest.foldl max best) := by
  refine ⟨foldl_choose_mem max_choice rest best, ?_⟩
  induction rest generalizing best with
  | nil =>
    intro a ha
    exact (List.mem_singleton.mp ha).le
  | cons next rest ih =>
    intro a ha
    rw [List.foldl_cons]
    have above : max best next ≤ rest.foldl max (max best next) := ih _ (List.mem_cons_self ..)
    rcases List.mem_cons.mp ha with rfl | ha
    · exact (le_max_left a next).trans above
    rcases List.mem_cons.mp ha with rfl | ha
    · exact (le_max_right best a).trans above
    · exact ih _ (List.mem_cons_of_mem _ ha)

theorem foldl_min_isLeast {α : Type} [LinearOrder α] (rest : List α) (best : α) :
    IsLeast {a | a ∈ best :: rest} (rest.foldl min best) :=
  foldl_max_isGreatest (α := αᵒᵈ) rest best

theorem Stored.seenBy_none (w : Stored) (b : Parallelotope) : w.seenBy {} b = b := by
  obtain ⟨s, _ | f⟩ := b <;> rfl

namespace Op

variable {α β : Type}

/-- Started with an operand that has been left as `W` says, if it has a new content, the
computation leaves it as `W'` says; it returns a result with `P`, or fails if it may. -/
def Meets (W W' : Parallelotope → Prop) (mayFail : Prop) (x : Op α) (P : α → Prop) : Prop :=
  ∀ r : Report, (∀ a, r.left = some a → W a) →
    (∀ a, (x r).2.left = some a → W' a) ∧
      match (x r).1 with
      | .ok a => P a
      | .error _ => mayFail

/-- As `Meets`, where every failure has a cause with `E`. -/
def Ends (W W' : Parallelotope → Prop) (E : Error → Prop) (x : Op α) (P : α → Prop) : Prop :=
  ∀ r : Report, (∀ a, r.left = some a → W a) →
    (∀ a, (x r).2.left = some a → W' a) ∧
      match (x r).1 with
      | .ok a => P a
      | .error e => E e

variable {W W' W'' : Parallelotope → Prop} {mayFail : Prop} {E E' : Error → Prop} {x : Op α}
  {f : α → Op β} {P P' : α → Prop} {Q : β → Prop}

theorem meets_iff_ends : Meets W W' mayFail x P ↔ Ends W W' (fun _ => mayFail) x P := Iff.rfl

/-! ## Composition -/

theorem meets_pure {a : α} (h : P a) : Meets W W mayFail (pure a) P :=
  fun _ left => ⟨left, h⟩

theorem ends_pure {a : α} (h : P a) : Ends W W E (pure a : Op α) P :=
  fun _ left => ⟨left, h⟩

theorem meets_throw (e : Error) (h : mayFail) : Meets W W mayFail (throw e : Op α) P :=
  fun _ left => ⟨left, h⟩

theorem ends_throw {e : Error} (cause : E e) : Ends W W E (throw e : Op α) P :=
  fun _ left => ⟨left, cause⟩

theorem meets_throw_bind (e : Error) (h : mayFail) :
    Meets W W mayFail ((throw e : Op α) >>= f) Q :=
  fun _ left => ⟨left, h⟩

theorem run_bind (x : Op α) (f : α → Op β) (r : Report) :
    (x >>= f) r = ExceptT.bindCont f (x r).1 (x r).2 :=
  rfl

theorem lift_ok_bind (a : α) (f : α → Op β) : (liftM (.ok a : Except Error α) : Op α) >>= f = f a :=
  rfl

theorem run_bind_pure (x : Op α) (g : α → β) (r : Report) :
    (x >>= fun a => pure (g a)) r = ((x r).1.map g, (x r).2) := by
  rw [run_bind]
  cases result : (x r).1 with
  | ok a => rfl
  | error e => rfl

/-- Two steps in turn.  If the first fails, what it leaves stays. -/
theorem Ends.bind_of (hx : Ends W W' E' x P) (fails : ∀ e, E' e → E e ∧ ∀ a, W' a → W'' a)
    (hf : ∀ a, P a → Ends W' W'' E (f a) Q) : Ends W W'' E (x >>= f) Q := by
  intro r left
  obtain ⟨left', outcome⟩ := hx r left
  rw [run_bind]
  cases result : (x r).1 with
  | ok a =>
    rw [result] at outcome
    exact hf a outcome _ left'
  | error e =>
    rw [result] at outcome
    exact ⟨fun a h => (fails e outcome).2 a (left' a h), (fails e outcome).1⟩

theorem Ends.bind (hx : Ends W W E x P) (hf : ∀ a, P a → Ends W W E (f a) Q) :
    Ends W W E (x >>= f) Q :=
  hx.bind_of (fun _ cause => ⟨cause, fun _ => id⟩) hf

theorem Meets.bind (hx : Meets W W mayFail x P) (hf : ∀ a, P a → Meets W W mayFail (f a) Q) :
    Meets W W mayFail (x >>= f) Q :=
  (meets_iff_ends.mp hx).bind hf

theorem Meets.bind_total (hx : Meets W W' False x P)
    (hf : ∀ a, P a → Meets W' W'' mayFail (f a) Q) : Meets W W'' mayFail (x >>= f) Q :=
  (meets_iff_ends.mp hx).bind_of (fun _ => False.elim) hf

theorem Ends.weaken {V : Parallelotope → Prop} (hx : Ends W W' E x P) (left : ∀ a, W' a → V a)
    (result : ∀ a, P a → P' a) (causes : ∀ e, E e → E' e) : Ends W V E' x P' := by
  intro r start
  obtain ⟨left', outcome⟩ := hx r start
  refine ⟨fun a ha => left a (left' a ha), ?_⟩
  cases returned : (x r).1 with
  | ok a =>
    rw [returned] at outcome
    exact result a outcome
  | error e =>
    rw [returned] at outcome
    exact causes e outcome

theorem Ends.mono (hx : Ends W W' E x P) (causes : ∀ e, E e → E' e) (h : ∀ a, P a → P' a) :
    Ends W W' E' x P' := hx.weaken (fun _ => id) h causes

theorem Ends.imp (hx : Ends W W' E x P) (h : ∀ a, P a → P' a) : Ends W W' E x P' :=
  hx.mono (fun _ => id) h

theorem Ends.ran (hx : Ends W W' E x P) : Ends W W' E x fun a => ∃ r, (x r).1 = .ok a := by
  intro r left
  obtain ⟨left', outcome⟩ := hx r left
  refine ⟨left', ?_⟩
  cases returned : (x r).1 with
  | ok a => exact ⟨r, returned⟩
  | error e =>
    rw [returned] at outcome
    exact outcome

theorem Meets.ends (hx : Meets W W' False x P) : Ends W W' E x P :=
  (meets_iff_ends.mp hx).mono (fun _ => False.elim) fun _ => id

theorem Meets.mono {V : Parallelotope → Prop} {mayFail' : Prop} (hx : Meets W W' mayFail x P)
    (left : ∀ a, W' a → V a) (result : ∀ a, P a → P' a) (fails : mayFail → mayFail') :
    Meets W V mayFail' x P' :=
  (meets_iff_ends.mp hx).weaken left result fun _ => fails

theorem Meets.imp (hx : Meets W W' mayFail x P) (h : ∀ a, P a → P' a) :
    Meets W W' mayFail x P' := hx.mono (fun _ => id) h id

theorem Meets.leaves {V : Parallelotope → Prop} (hx : Meets W W' mayFail x P)
    (h : ∀ a, W' a → V a) : Meets W V mayFail x P := hx.mono h (fun _ => id) id

theorem Meets.of_total (hx : Meets W W' False x P) : Meets W W' mayFail x P :=
  hx.mono (fun _ => id) (fun _ => id) False.elim

theorem Ends.both {V V' : Parallelotope → Prop} (hx : Ends W W' E x P) (hx' : Ends V V' E' x P')
    (weaker : ∀ a, W a → V a) : Ends W W' (fun e => E e ∧ E' e) x fun a => P a ∧ P' a := by
  intro r left
  obtain ⟨left', outcome⟩ := hx r left
  obtain ⟨-, outcome'⟩ := hx' r fun a ha => weaker a (left a ha)
  refine ⟨left', ?_⟩
  cases result : (x r).1 with
  | ok a =>
    rw [result] at outcome outcome'
    exact ⟨outcome, outcome'⟩
  | error e =>
    rw [result] at outcome outcome'
    exact ⟨outcome, outcome'⟩

theorem Meets.both {V V' : Parallelotope → Prop} (hx : Meets W W' mayFail x P)
    (hx' : Meets V V' mayFail x P') (weaker : ∀ a, W a → V a) :
    Meets W W' mayFail x fun a => P a ∧ P' a :=
  ((meets_iff_ends.mp hx).both hx' weaker).mono (fun _ => And.left) fun _ => id

theorem Meets.and (hx : Meets W W' mayFail x P)
    (hx' : Meets (fun _ => True) (fun _ => True) mayFail x P') :
    Meets W W' mayFail x fun a => P a ∧ P' a :=
  hx.both hx' fun _ _ => trivial

theorem Meets.and_ends (hx : Meets W W' True x P)
    (ends : Ends (fun _ => True) (fun _ => True) E x P') : Ends W W' E x fun a => P a ∧ P' a :=
  ((meets_iff_ends.mp hx).both ends fun _ _ => trivial).mono (fun _ => And.right) fun _ => id

theorem meets_lift {y : Except Error α} (ok : ∀ a, y = .ok a → P a)
    (error : ∀ e, y = .error e → mayFail) : Meets W W mayFail (liftM y : Op α) P := by
  intro r left
  cases y with
  | ok a => exact ⟨left, ok a rfl⟩
  | error e => exact ⟨left, error e rfl⟩

theorem lift_meets (y : Except Error α) : Meets W W True (liftM y : Op α) fun _ => True :=
  meets_lift (fun _ _ => trivial) fun _ _ => trivial

theorem meets_lift_ok {y : Except Error α} {a : α} (ok : y = .ok a) (h : P a) :
    Meets W W mayFail (liftM y : Op α) P := by
  subst ok
  exact fun _ left => ⟨left, h⟩

theorem meets_foldlM {γ : Type} (Inv : List γ → α → Prop) {step : α → γ → Op α} {items : List γ}
    {start : α} (first : Inv [] start)
    (next : ∀ done item a, done ++ [item] <+: items → Inv done a →
      Meets W W mayFail (step a item) (Inv (done ++ [item]))) :
    Meets W W mayFail (items.foldlM step start) (Inv items) := by
  -- The induction is on what is left; what is done grows at its end.
  suffices general : ∀ (done rest : List γ) (a : α), done ++ rest = items → Inv done a →
      Meets W W mayFail (rest.foldlM step a) (Inv items) from general [] items start rfl first
  intro done rest
  induction rest generalizing done with
  | nil =>
    intro a all h
    rw [List.append_nil] at all
    subst all
    exact meets_pure h
  | cons item rest ih =>
    intro a all h
    have split : (done ++ [item]) ++ rest = items := by rw [← all, List.append_assoc]; rfl
    rw [List.foldlM_cons]
    exact (next done item a ⟨rest, split⟩ h).bind fun b hb => ih (done ++ [item]) b split hb

theorem ends_mapM {γ : Type} {R : γ → α → Prop} {step : γ → Op α} {items : List γ}
    (each : ∀ item ∈ items, Ends W W E (step item) (R item)) :
    Ends W W E (items.mapM step) fun results => List.Forall₂ R items results := by
  induction items with
  | nil => exact ends_pure .nil
  | cons item items ih =>
    rw [List.mapM_cons]
    refine (each item (List.mem_cons_self ..)).bind fun a ha => ?_
    refine (ih fun i hi => each i (List.mem_cons_of_mem _ hi)).bind fun as has => ?_
    exact ends_pure (.cons ha has)

theorem meets_mapM {γ : Type} {R : γ → α → Prop} {step : γ → Op α} {items : List γ}
    (each : ∀ item ∈ items, Meets W W mayFail (step item) (R item)) :
    Meets W W mayFail (items.mapM step) fun results => List.Forall₂ R items results :=
  ends_mapM each

theorem meets_forM {γ : Type} {R : γ → Prop} {step : γ → Op PUnit} {items : List γ}
    (each : ∀ item ∈ items, Meets W W mayFail (step item) fun _ => R item) :
    Meets W W mayFail (items.forM step) fun _ => ∀ item ∈ items, R item := by
  induction items with
  | nil => exact meets_pure (by simp)
  | cons item items ih =>
    refine (each item (List.mem_cons_self ..)).bind fun _ first => ?_
    refine (ih fun i hi => each i (List.mem_cons_of_mem _ hi)).imp fun _ rest => ?_
    exact List.forall_mem_cons.mpr ⟨first, rest⟩

/-! ## Results -/

/-- From the start the computation returns a result, and that has `P`. -/
def Yields (x : Op α) (P : α → Prop) : Prop := ∃ a report, x.start = (.ok a, report) ∧ P a

theorem exists_start_eq {x : Op α} (ok : x.start.1.toBool) :
    ∃ a report, x.start = (.ok a, report) := by
  rcases result : x.start with ⟨_ | a, report⟩
  · simp [result, Except.toBool] at ok
  · exact ⟨a, report, rfl⟩

theorem Ends.yields_or_error (hx : Ends W W' E x P) :
    x.Yields P ∨ ∃ e report, x.start = (.error e, report) ∧ E e := by
  obtain ⟨-, outcome⟩ := hx {} nofun
  cases result : (x {}).1 with
  | ok a =>
    rw [result] at outcome
    exact .inl ⟨a, (x {}).2, Prod.ext result rfl, outcome⟩
  | error e =>
    rw [result] at outcome
    exact .inr ⟨e, (x {}).2, Prod.ext result rfl, outcome⟩

theorem Ends.yields (hx : Ends W W' E x P) (none : ∀ e, ¬ E e) : x.Yields P := by
  cases hx.yields_or_error with
  | inl yields => exact yields
  | inr failed =>
    obtain ⟨e, -, -, cause⟩ := failed
    exact absurd cause (none e)

theorem Meets.yields (hx : Meets W W' False x P) : x.Yields P :=
  (meets_iff_ends.mp hx).yields fun _ => id

theorem Meets.of_start (hx : Meets W W' mayFail x P) {a : α} {report : Report}
    (returns : x.start = (.ok a, report)) : P a := by
  obtain ⟨-, outcome⟩ := hx {} nofun
  have result : (x {}).1 = .ok a := congrArg Prod.fst returns
  rwa [result] at outcome

theorem Meets.yields_bind {a : α} {report : Report} (returns : x.start = (.ok a, report))
    (hf : Meets (fun _ => True) W' False (f a) Q) : (x >>= f).Yields Q := by
  have run : (x >>= f).start = ExceptT.bindCont f x.start.1 x.start.2 := run_bind x f {}
  rw [returns] at run
  obtain ⟨-, outcome⟩ := hf report fun _ _ => trivial
  cases result : (f a report).1 with
  | ok b =>
    rw [result] at outcome
    exact ⟨b, (f a report).2, run.trans (Prod.ext result rfl), outcome⟩
  | error e =>
    rw [result] at outcome
    exact outcome.elim

/-! ## Primitive operations -/

theorem inexact_meets : Meets W W mayFail inexact fun _ => True :=
  fun _ left => ⟨left, trivial⟩

theorem inexact_if_meets {c : Prop} [Decidable c] {y : Op β} (hy : Meets W W' mayFail y Q) :
    Meets W W' mayFail (if c then inexact >>= fun _ => y else y) Q := by
  split
  · exact fun r left => hy { r with exact := false } left
  · exact hy

theorem guard_meets {c : Prop} [Decidable c] {e : Error} {y : Op β} (fails : c → mayFail)
    (hy : ¬ c → Meets W W mayFail y Q) :
    Meets W W mayFail (if c then (throw e : Op PUnit) >>= fun _ => y else y) Q := by
  split
  · rename_i refused
    exact meets_throw_bind e (fails refused)
  · rename_i passed
    exact hy passed

theorem get_meets : Meets W W mayFail (get : Op Report) fun _ => True :=
  fun _ left => ⟨left, trivial⟩

theorem write_meets {s : Space} {c : Cut} (h : W' (c.toParallelotope s)) :
    Meets W W' mayFail (write s c) fun _ => True :=
  fun _ _ => ⟨fun _ eq => by obtain rfl := Option.some.inj eq; exact h, trivial⟩

theorem put_meets {P : Parallelotope → Prop} {s : Space} {c : Cut} (h : W' (c.toParallelotope s))
    (hP : P (c.toParallelotope s)) : Meets W W' mayFail (put s c) P :=
  fun _ _ => ⟨fun _ eq => by obtain rfl := Option.some.inj eq; exact h, hP⟩

theorem refit_meets {P : Parallelotope → Prop} {s : Space} {f : Frame} (h : W' ⟨s, some f⟩)
    (hP : P ⟨s, some f⟩) : Meets W W' mayFail (refit s f) P :=
  fun _ _ => ⟨fun _ eq => by obtain rfl := Option.some.inj eq; exact h, hP⟩

theorem move_meets {P : Parallelotope → Prop} {a : Parallelotope} (h : W' a) (hP : P a) :
    Meets W W' mayFail (move a) P :=
  fun _ _ => ⟨fun _ eq => by obtain rfl := Option.some.inj eq; exact h, hP⟩

theorem current_meets {P : Parallelotope → Prop} {b : Parallelotope} (h : P b) :
    Meets W W mayFail (current {} b) P := by
  intro r left
  refine ⟨left, ?_⟩
  show P (r.stored.seenBy {} b)
  rwa [Stored.seenBy_none]

theorem ends_aside {V V' : Parallelotope → Prop} (hx : Ends V V' E x P) : Ends W W E (aside x) P :=
  fun r left => ⟨left, (hx { exact := r.exact } nofun).2⟩

theorem aside_meets {V V' : Parallelotope → Prop} (hx : Meets V V' mayFail x P) :
    Meets W W mayFail (aside x) P := ends_aside hx

theorem scratch_meets {V V' : Parallelotope → Prop} (hx : Meets V V' mayFail x P) :
    Meets W W mayFail (scratch x) P :=
  fun _ left => ⟨left, (hx {} nofun).2⟩

theorem about_meets {k : ℕ} (hx : Meets W W' mayFail x P) : Meets W W' mayFail (about k x) P :=
  fun r left => hx { r with asked := false } left

/-! ## Results that stay in the operand -/

/-- What the computation returns is what it leaves in the first operand. -/
def Leaves (x : Op Parallelotope) : Prop := ∀ r a, (x r).1 = .ok a → (x r).2.left = some a

theorem put_leaves (s : Space) (c : Cut) : Leaves (put s c) :=
  fun _ _ h => congrArg some (Except.ok.inj h)

theorem move_leaves (a : Parallelotope) : Leaves (move a) :=
  fun _ _ h => congrArg some (Except.ok.inj h)

theorem Leaves.bind {f : α → Op Parallelotope} (h : ∀ a, Leaves (f a)) : Leaves (x >>= f) := by
  intro r b
  rw [run_bind]
  cases (x r).1 with
  | ok a => exact h a (x r).2 b
  | error e => exact nofun

theorem Meets.bind_leaves {x : Op Parallelotope} {f : Parallelotope → Op β}
    {P : Parallelotope → Prop} (hx : Meets W W' False x P) (leaves : Leaves x)
    (hf : ∀ a, P a → Meets (· = a) W'' mayFail (f a) Q) : Meets W W'' mayFail (x >>= f) Q := by
  intro r left
  obtain ⟨-, outcome⟩ := hx r left
  rw [run_bind]
  cases result : (x r).1 with
  | ok a =>
    rw [result] at outcome
    refine hf a outcome _ fun b hb => ?_
    -- The second step starts from the operand that the first one left, which is its result.
    rw [leaves r a result] at hb
    exact (Option.some.inj hb).symm
  | error e =>
    rw [result] at outcome
    exact outcome.elim

end Op

end SkewBox
