import SkewBox.Transfer
import SkewBox.Proofs.Bounds
import SkewBox.Proofs.Reshape

/-!
# Parallel assignments as affine maps

The point after a parallel assignment is, up to the constants, the image of the point before under
the matrix of the assignment, where the expressions are read on some set of points.

* `assigned`, `appended`: a point with several coordinates replaced at once, or further ones.
* `Parallelotope.Maps`, `affineMap_meets`: the affine map of an assignment.
* `Parallelotope.finish_keeps`, `finish_meets`: the last step of every transfer.
-/

namespace SkewBox

/-! ## Lists that correspond -/

section Lists

variable {α β γ : Type*}

theorem forall₂_concat {R : α → β → Prop} {as : List α} {a : α} {cs : List β} :
    List.Forall₂ R (as ++ [a]) cs ↔ ∃ bs b, cs = bs ++ [b] ∧ List.Forall₂ R as bs ∧ R a b := by
  induction as generalizing cs with
  | nil =>
    constructor
    · intro related
      cases related with
      | cons first rest =>
        cases rest with
        | nil => exact ⟨[], _, rfl, .nil, first⟩
    · rintro ⟨_, b, rfl, ⟨⟩, last⟩
      exact .cons last .nil
  | cons c as ih =>
    constructor
    · intro related
      cases related with
      | cons first rest =>
        obtain ⟨bs, b, rfl, init, last⟩ := ih.mp rest
        exact ⟨_ :: bs, b, rfl, .cons first init, last⟩
    · rintro ⟨_, b, rfl, init, last⟩
      cases init with
      | cons first rest => exact .cons first (ih.mpr ⟨_, b, rfl, rest, last⟩)

theorem forall₂_compose {R : α → β → Prop} {S : α → γ → Prop} {T : β → γ → Prop}
    (h : ∀ a b c, R a b → S a c → T b c) {as : List α} {bs : List β} {cs : List γ}
    (first : List.Forall₂ R as bs) (second : List.Forall₂ S as cs) : List.Forall₂ T bs cs := by
  induction first generalizing cs with
  | nil =>
    cases second with
    | nil => exact .nil
  | cons hab _ ih =>
    cases second with
    | cons hac rest => exact .cons (h _ _ _ hab hac) (ih rest)

end Lists

/-! ## Replacing coordinates -/

section Points

variable {K : Type*}

/-- The point `x` with the coordinates `dims` replaced at once by the values `vs`. -/
def assigned (x : ℕ → K) (dims : List ℕ) (vs : List K) : ℕ → K := fun j =>
  ((dims.zip vs).lookup j).getD (x j)

variable {x : ℕ → K} {dims : List ℕ} {vs : List K}

theorem lookup_zip_eq_none {j : ℕ} (h : j ∉ dims) : (dims.zip vs).lookup j = none := by
  rw [List.lookup_eq_none_iff]
  rintro ⟨d, v⟩ hpair
  have mem := (List.of_mem_zip hpair).1
  have other : j ≠ d := fun same => h (same ▸ mem)
  simpa using other

theorem assigned_of_not_mem {j : ℕ} (h : j ∉ dims) : assigned x dims vs j = x j := by
  rw [assigned, lookup_zip_eq_none h, Option.getD_none]

theorem assigned_append {d : ℕ} {v : K} (same : dims.length = vs.length) (fresh : d ∉ dims) (j : ℕ) :
    assigned x (dims ++ [d]) (vs ++ [v]) j = if j = d then v else assigned x dims vs j := by
  rw [assigned, List.zip_append same, List.lookup_append]
  by_cases here : j = d
  · rw [if_pos here, here, lookup_zip_eq_none fresh]
    simp
  · have other : (j == d) = false := by simpa using here
    rw [if_neg here]
    simp [assigned, List.lookup_cons, other]

theorem assigned_cons {d j : ℕ} {v : K} :
    assigned x (d :: dims) (v :: vs) j = if j = d then v else assigned x dims vs j := by
  by_cases here : j = d
  · subst here
    simp [assigned]
  · have other : (j == d) = false := by simpa using here
    simp [assigned, List.lookup_cons, here, other]

theorem assigned_related {ε : Type*} {R : ε → K → Prop} {exprs : List ε} (distinct : dims.Nodup)
    (related : List.Forall₂ R exprs vs) {d : ℕ} {e : ε} (mem : (d, e) ∈ dims.zip exprs) :
    R e (assigned x dims vs d) := by
  induction related generalizing dims with
  | nil => simp at mem
  | cons first _ ih =>
    cases dims with
    | nil => simp at mem
    | cons d' dims =>
      obtain ⟨fresh, distinct⟩ := List.nodup_cons.mp distinct
      rw [assigned_cons]
      rcases List.mem_cons.mp mem with same | later
      · obtain ⟨rfl, rfl⟩ := Prod.ext_iff.mp same
        rwa [if_pos rfl]
      · have other : d ≠ d' := fun same => fresh (same ▸ (List.of_mem_zip later).1)
        rw [if_neg other]
        exact ih distinct later

theorem assigned_getD [Zero K] (distinct : dims.Nodup) (same : dims.length = vs.length) {i : ℕ}
    (hi : i < dims.length) : assigned x dims vs (dims.getD i 0) = vs.getD i 0 := by
  have mem : (dims.getD i 0, vs.getD i 0) ∈ dims.zip vs := by
    rw [List.mem_iff_getElem]
    exact ⟨i, by simp [hi, same ▸ hi], by simp [hi, same ▸ hi]⟩
  exact (assigned_related (R := Eq) distinct (List.forall₂_same.mpr fun _ _ => rfl) mem).symm

/-- The point with further coordinates from `n` on. -/
def appended [Zero K] (n : ℕ) (x : ℕ → K) (vs : List K) : ℕ → K := fun i =>
  if i < n then x i else vs.getD (i - n) 0

theorem assigned_targets [Zero K] {n : ℕ} (distinct : dims.Nodup)
    (inside : ∀ d ∈ dims, d < n) (same : dims.length = vs.length) {j : ℕ} (hj : j < n) :
    assigned x dims vs ((kept n dims ++ dims).getD j 0) =
      appended n x vs ((kept n dims ++ List.range' n dims.length).getD j 0) := by
  have total := length_kept distinct inside
  by_cases early : j < (kept n dims).length
  · rw [List.getD_append _ _ _ _ early, List.getD_append _ _ _ _ early]
    obtain ⟨small, out⟩ := mem_kept.mp (getD_mem early)
    rw [assigned_of_not_mem out, appended, if_pos small]
  · rw [List.getD_append_right _ _ _ _ (not_lt.mp early),
      List.getD_append_right _ _ _ _ (not_lt.mp early)]
    have late : j - (kept n dims).length < dims.length := by omega
    have place : (List.range' n dims.length).getD (j - (kept n dims).length) 0 =
        n + (j - (kept n dims).length) := by
      rw [List.getD_eq_getElem _ _ (by simpa using late), List.getElem_range'_1]
    rw [assigned_getD distinct same late, place]
    simp [appended]

end Points

/-! ## Arguments -/

/-- A value that is given as the target is well-formed and shares no rows with the operand. -/
def Target.WellFormed : Target → Prop
  | .value b sharing => b.WellFormed ∧ sharing = {}
  | _ => True

/-- A value that is given as the target lives in the space. -/
def Target.InSpace (s : Space) : Target → Prop
  | .value b _ => b.space = s
  | _ => True

/-- A value that is given as the target has the point. -/
def Target.Permits {K : Type*} [Field K] [LinearOrder K] (x : ℕ → K) : Target → Prop
  | .value b _ => b.Has x
  | _ => True

/-- The value that a target stands for when the operand is `a`. -/
def Target.valueFor (a : Parallelotope) : Target → Option Parallelotope
  | .none => Option.none
  | .value b _ => some b
  | .operand => some a

namespace Parallelotope

variable {K : Type*} [Field K] [LinearOrder K] {a : Parallelotope} {cfg : Settings}
  {W : Parallelotope → Prop} {target : Target} {mayFail : Prop}

theorem targetValue?_meets (ht : target.WellFormed) :
    Op.Meets W W mayFail (a.targetValue? target) (· = target.valueFor a) := by
  cases target with
  | none => exact Op.meets_pure rfl
  | operand => exact Op.meets_pure rfl
  | value b sharing =>
    obtain ⟨-, rfl⟩ := ht
    refine (Op.current_meets (P := (· = b)) rfl).bind ?_
    rintro _ rfl
    exact Op.meets_pure rfl

theorem checkTransfer_meets {ε : Type} {data : List Datum} {exprs : List ε} {maxDim : ε → ℤ}
    {render : ε → String} (ht : target.WellFormed) :
    Op.Meets W W True (a.checkTransfer data exprs maxDim render target) fun dims =>
      data = dims.map (fun d => .int d) ∧ dims.Nodup ∧ (∀ d ∈ dims, d < a.space.size) ∧
        dims.length = exprs.length ∧ target.InSpace a.space := by
  unfold checkTransfer
  by_cases same : data.length = exprs.length
  · simp only [ne_eq, same, not_true_eq_false, if_false]
    refine (Op.meets_lift (fun _ ok => Space.checkDistinct_eq_ok.mp ok) fun _ _ => trivial).bind ?_
    rintro dims ⟨rfl, distinct, inside⟩
    rw [List.length_map] at same
    -- The expressions may mention too large a dimension, and the target may have another space.
    split
    · exact Op.meets_throw_bind _ trivial
    · refine (targetValue?_meets ht).bind ?_
      rintro _ rfl
      cases target with
      | none => exact Op.meets_pure ⟨rfl, distinct, inside, same, trivial⟩
      | operand =>
        refine (Op.lift_meets _).bind fun _ _ => ?_
        exact Op.meets_pure ⟨rfl, distinct, inside, same, trivial⟩
      | value b sharing =>
        refine (Op.meets_lift (fun _ ok => checkSpace_eq_ok ok) fun _ _ => trivial).bind ?_
        exact fun _ space => Op.meets_pure ⟨rfl, distinct, inside, same, space.symm⟩
  · simp only [ne_eq, same, not_false_eq_true, if_true]
    exact Op.meets_throw_bind _ trivial

/-! ## The last step -/

theorem meet_leaves {f : Frame} (hf : a.frame? = some f) (b : Parallelotope) :
    Op.Leaves (a.meet cfg b) := by
  unfold meet
  refine Op.Leaves.bind fun _ => ?_
  simp only [hf]
  cases b.frame? with
  | none => exact Op.move_leaves _
  | some g => exact Op.Leaves.bind fun c => Op.put_leaves _ c

/-- The result of a transfer: the points that the target has as well are kept. -/
structure Finishes (a : Parallelotope) (target : Target) (K : Type*) [Field K] [LinearOrder K]
    (b : Parallelotope) : Prop where
  space : b.space = a.space
  wellFormed : b.WellFormed
  keeps : ∀ x : ℕ → K, a.space.Admits x → a.Has x → target.Permits x → b.Has x

theorem Finishes.of_narrows {b c : Parallelotope} {S T : (ℕ → K) → Prop} {ordered : Prop}
    (first : a.Narrows ordered S b) (second : b.Narrows True T c)
    (permits : ∀ x, a.Has x → target.Permits x → S x ∧ T x) : a.Finishes target K c where
  space := second.space.trans first.space
  wellFormed := second.shaped
  keeps x admits has h :=
    second.keeps x (first.space ▸ admits) (first.keeps x admits has (permits x has h).1)
      (permits x has h).2

/-- A value that the target stands for lives in the space, and is in shape if the operand is. -/
theorem valueFor_eq_some {b : Parallelotope} (h : target.valueFor a = some b)
    (ha : a.Shaped False) (ht : target.WellFormed) (space : target.InSpace a.space) :
    b.Shaped False ∧ a.space = b.space ∧ ∀ x : ℕ → K, a.Has x → target.Permits x → b.Has x := by
  cases target with
  | none => contradiction
  | operand =>
    obtain rfl := Option.some.inj h
    exact ⟨ha, rfl, fun _ has _ => has⟩
  | value c sharing =>
    obtain rfl := Option.some.inj h
    exact ⟨ht.1.weaken, space.symm, fun _ _ has => has⟩

variable [IsStrictOrderedRing K]

theorem finish_keeps (ha : a.WellFormed) (ht : target.WellFormed)
    (space : target.InSpace a.space) :
    Op.Keeps True False (a.finish cfg target) (a.Finishes target K) := by
  unfold finish
  refine (targetValue?_meets ht).bind ?_
  rintro _ rfl
  cases hb : target.valueFor a with
  | none =>
    refine (tidy_keeps (K := K) ha.weaken).imp ?_
    rintro c ⟨tidied, -⟩
    exact .of_narrows (narrows_self ha) tidied fun _ _ _ => ⟨trivial, trivial⟩
  | some b =>
    obtain ⟨shaped, same, permits⟩ := valueFor_eq_some (K := K) hb ha.weaken ht space
    refine (meet_keeps (K := K) ha shaped same).bind fun c narrows => ?_
    refine (tidy_keeps (K := K) narrows.shaped.weaken).imp ?_
    rintro d ⟨tidied, -⟩
    exact .of_narrows narrows tidied fun x has h => ⟨permits x has h, trivial⟩

theorem finish_meets {f : Frame} (ha : a.Shaped False) (hf : a.frame? = some f)
    (ht : target.WellFormed) (space : target.InSpace a.space) :
    Op.Meets (·.Shaped False) (·.WellFormed) False (a.finish cfg target) (a.Finishes target K) := by
  unfold finish
  refine (targetValue?_meets ht).bind_total ?_
  rintro _ rfl
  cases hb : target.valueFor a with
  | none =>
    -- The value has a frame, so the case of an empty value does not arise.
    have framed : a.frame? = none → ∀ b : Parallelotope, b.Shaped False → b.WellFormed :=
      fun none => by simp [hf] at none
    refine (tidy_meets (K := K) ha framed fun _ => id).imp ?_
    rintro c ⟨tidied, -⟩
    exact .of_narrows (narrows_self ha) tidied fun _ _ _ => ⟨trivial, trivial⟩
  | some b =>
    obtain ⟨shaped, same, permits⟩ := valueFor_eq_some (K := K) hb ha ht space
    refine (meet_keeps (K := K) ha shaped same).bind_leaves (meet_leaves hf b) fun c narrows => ?_
    have empty : c.frame? = none → ∀ b, b = c → b.WellFormed := by
      rintro none _ rfl
      exact shaped_of_none none
    refine (tidy_meets (K := K) narrows.shaped empty fun _ => id).imp ?_
    rintro d ⟨tidied, -⟩
    exact .of_narrows narrows tidied fun x has h => ⟨permits x has h, trivial⟩

/-! ## The affine map of an assignment -/

theorem getD_zipWith_rows {g : Vec → Interval → Interval} {rows : Mat} {Is : List Interval} {n i : ℕ}
    (hrows : rows.length = n) (hranges : Is.length = n) (hi : i < n) :
    (List.zipWith g rows Is).getD i .top = g (rows.getD i []) (Is.getD i .top) := by
  simp [hrows ▸ hi, hranges ▸ hi]

theorem dot_consts_has {consts : List Interval} {row : Vec} {n : ℕ} (length : consts.length = n)
    (width : row.length = n) {b : ℕ → K} (members : ∀ i < n, (consts.getD i .top).Has (b i))
    (P : Precision) : (P.dot row consts).Has (row.eval b) := by
  refine P.dot_has (width.trans length.symm).le fun i => ?_
  by_cases hi : i < n
  · exact members i hi
  · rw [List.getD_eq_default _ _ (by omega)]
    exact Interval.top_has

/-- The map has every value of the assigned point up to its constants, and its expressions take the
values that were given, where the expressions are read at the points with `S`. -/
structure Maps (m : AffineMap) (n : ℕ) (S : (ℕ → K) → Prop) (dims : List ℕ) (exprs : List Affine) :
    Prop where
  shape : m.matrix.HasShape n n
  consts : m.consts.length = n
  count : m.exprs.length = exprs.length
  takes : ∀ x, S x → ∀ vs, List.Forall₂ (fun e v => e.Takes x v) exprs vs →
    List.Forall₂ (fun e v => e.Takes x v) m.exprs vs
  values : ∀ x, S x → ∀ vs, List.Forall₂ (fun e v => e.Takes x v) exprs vs → ∀ i < n,
    (m.consts.getD i .top).Has (assigned x dims vs i - m.matrix.image x i)

variable {S : (ℕ → K) → Prop}

theorem maps_identity (n : ℕ) : Maps ⟨.identity n, List.replicate n .zero, []⟩ n S [] [] where
  shape := Mat.hasShape_identity n
  consts := List.length_replicate ..
  count := rfl
  takes _ _ _ h := h
  values x _ vs _ i hi := by
    rw [assigned_of_not_mem List.not_mem_nil, Mat.image_identity hi, sub_self,
      List.getD_eq_getElem _ _ (by simpa using hi), List.getElem_replicate]
    exact Interval.zero_has

theorem Maps.assignRow {m : AffineMap} {n d : ℕ} {dims : List ℕ} {exprs : List Affine}
    {e e' : Affine} {row : Vec} (maps : Maps m n S dims exprs) (hd : d < n) (fresh : d ∉ dims)
    (same : dims.length = exprs.length)
    (encloses : ∀ x, S x → ∀ v, e.Takes x v → e'.Takes x v) (dense : e'.dense n = .ok row) :
    Maps ⟨m.matrix.set d row, m.consts.set d e'.const, m.exprs ++ [e']⟩ n S (dims ++ [d])
      (exprs ++ [e]) := by
  obtain ⟨length, has⟩ := Affine.dense_eq_ok (K := K) dense
  refine ⟨⟨by simp [maps.shape.length], fun v hv => ?_⟩, by simp [maps.consts],
    by simp [maps.count], ?_, ?_⟩
  · rcases List.mem_or_eq_of_mem_set hv with old | new
    · exact maps.shape.width v old
    · rw [new, length]
  · intro x hx vs hvs
    obtain ⟨us, v, rfl, hus, hv⟩ := forall₂_concat.mp hvs
    exact forall₂_concat.mpr ⟨us, v, rfl, maps.takes x hx us hus, encloses x hx v hv⟩
  · -- The new row gives the value of the new expression; the others are those of the earlier map.
    intro x hx vs hvs i hi
    obtain ⟨us, v, rfl, hus, hv⟩ := forall₂_concat.mp hvs
    have lengths : dims.length = us.length := same.trans hus.length_eq
    rw [assigned_append lengths fresh, getD_set (maps.consts.symm ▸ hd),
      Frame.image_set (maps.shape.length.symm ▸ hd)]
    split_ifs with here
    · exact has x v (encloses x hx v hv)
    · exact maps.values x hx us hus i hi

/-- The affine map of an assignment whose expressions are made rational at the points with `S`. -/
theorem affineMap_meets {dims : List ℕ} {exprs : List Affine} (distinct : dims.Nodup)
    (inside : ∀ d ∈ dims, d < a.space.size) (same : dims.length = exprs.length)
    (linear : ∀ e ∈ exprs, Op.Meets W W True (a.quasiLinearize cfg e) fun e' =>
      ∀ x, S x → ∀ v, e.Takes x v → e'.Takes x v) :
    Op.Meets W W True (a.affineMap cfg dims exprs) fun m =>
      Maps m a.space.size S dims exprs := by
  have dims_eq : (dims.zip exprs).map (·.1) = dims := List.map_fst_zip same.le
  have exprs_eq : (dims.zip exprs).map (·.2) = exprs := List.map_snd_zip same.ge
  unfold affineMap
  -- The invariant: the rows written so far are those of the pairs handled so far.
  refine (Op.meets_foldlM (fun done m => Maps m a.space.size S (done.map (·.1)) (done.map (·.2)))
    (maps_identity _) ?_).imp fun m maps => ?_
  · rintro done ⟨d, e⟩ m ⟨rest, whole⟩ maps
    have mem : (d, e) ∈ dims.zip exprs := by simp [← whole]
    -- No dimension is assigned twice, so the row of `d` is still that of the identity.
    have fresh : d ∉ done.map (·.1) := by
      rw [← dims_eq, ← whole] at distinct
      simp only [List.map_append, List.append_assoc] at distinct
      have disjoint := (List.nodup_append.mp distinct).2.2
      exact fun hd => disjoint d hd d (by simp) rfl
    obtain ⟨hd, he⟩ := List.of_mem_zip mem
    refine (linear e he).bind fun e' encloses => ?_
    refine (Op.meets_lift (fun _ ok => ok) fun _ _ => trivial).bind fun row dense => ?_
    refine Op.meets_pure ?_
    rw [List.map_append, List.map_append]
    exact maps.assignRow (inside d hd) fresh (by simp) encloses dense
  · rwa [dims_eq, exprs_eq] at maps

end Parallelotope

end SkewBox
