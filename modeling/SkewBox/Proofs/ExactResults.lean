import SkewBox.Proofs.ExactTransfer
import SkewBox.Proofs.ExactUnion

/-!
# Results that are marked exact

An operation on values over real dimensions that ends with its mark set has lost nothing: the result
has exactly the points that the operation asks for.

* `Parallelotope.marked_results_exact`: the operations.
* `Parallelotope.infinite_constant_marked_exact`: a constant that no number can be.
-/

namespace SkewBox.Parallelotope

variable {K : Type*} [Field K] [LinearOrder K] [IsStrictOrderedRing K]

/-- Without rounding, over real dimensions and ranges that hold a rational each, a result that is
returned with the mark set is the intersection, the union, the sum with rays and lines, the cylinder
or the zero section over the projection, the set with dimensions added, removed, moved, copied or
folded, or the image of an assignment, whose constants are numbers unless they are empty, in the
target. -/
theorem marked_results_exact (cfg : Settings) (exact : cfg.precision = .exact) {a : Parallelotope}
    (ha : a.Solid) :
    (∀ b : Parallelotope, b.Solid →
      ((a.meet cfg b).Exactly fun c => ∀ x : ℕ → K, c.Has x ↔ a.Has x ∧ b.Has x) ∧
      (a.join cfg b).Exactly fun c => ∀ x : ℕ → K, c.Has x ↔ a.Has x ∨ b.Has x) ∧
    (∀ rest : List Parallelotope, (∀ b ∈ rest, b.Solid) →
      ((meetArray cfg (a :: rest)).Exactly fun c =>
        ∀ x : ℕ → K, c.Has x ↔ ∀ b ∈ a :: rest, b.Has x) ∧
      (joinArray cfg (a :: rest)).Exactly fun c =>
        ∀ x : ℕ → K, c.Has x ↔ ∃ b ∈ a :: rest, b.Has x) ∧
    (∀ cs : List (Constraint Affine), (∀ c ∈ cs, c.Linear) → (a.meetAffine cfg cs).Exactly fun b =>
      ∀ x : ℕ → K, b.Has x ↔ a.Has x ∧ ∀ c ∈ cs, c.HoldsAt x) ∧
    (∀ gens : List Generator, (a.addRays gens).Exactly fun b => ∀ x : ℕ → K, b.Has x ↔
      ∃ y ts, a.Has y ∧ List.Forall₂ Along gens ts ∧ ∀ j, x j = y j + swept gens ts j) ∧
    (∀ (data : List Datum) (project : Bool), (a.forget cfg data project).Exactly fun b =>
      ∃ dims : List ℕ, data = dims.map (fun d : ℕ => .int d) ∧ ∀ y : ℕ → K, b.Has y ↔
        (project → ∀ d ∈ dims, y d = 0) ∧ ∃ x, a.Has x ∧ ∀ j, j ∉ dims → x j = y j) ∧
    (∀ (c : Change) (project : Bool), (a.addDimensions cfg c project).Exactly fun b =>
      ∀ y : ℕ → K, b.Has y ↔
        (a.Has fun j => y ((oldPlaces a.space.size (c.positions.map Int.toNat)).getD j 0)) ∧
          (project → ∀ t ∈ freshPlaces (c.positions.map Int.toNat), y t = 0)) ∧
    (∀ c : Change, (a.removeDimensions cfg c).Exactly fun b =>
      ∃ dims : List ℕ, c.positions = dims.map (fun d : ℕ => (d : ℤ)) ∧ ∀ y : ℕ → K, b.Has y ↔
        ∃ x, a.Has x ∧ ∀ i < (kept a.space.size dims).length,
          y i = x ((kept a.space.size dims).getD i 0)) ∧
    (∀ p : Perm, (a.permute p).Exactly fun b =>
      ∀ y : ℕ → K, b.Has y ↔ a.Has fun j => y (p.images.getD j 0)) ∧
    (∀ (datum : Datum) (count : ℤ), (a.expand cfg datum count).Exactly fun b =>
      ∃ d : ℕ, datum = .int d ∧ ∀ y : ℕ → K, b.Has y ↔ a.Has y ∧
        ∀ i < count.toNat, a.Has (Function.update y d (y (a.space.size + i)))) ∧
    (∀ data : List Datum, (a.fold cfg data).Exactly fun b =>
      ∃ (d : ℕ) (rest : List ℕ), data = (d :: rest).map (fun d : ℕ => .int d) ∧
        ∀ y : ℕ → K, b.Has y ↔ ∃ e ∈ d :: rest, a.Folds d rest e y) ∧
    ∀ (data : List Datum) (exprs : List Affine) (target : Target),
      (∀ e ∈ exprs, e.const.Proper) → target.WellFormed → target.Solid →
      (a.assignAffine cfg data exprs target).Exactly fun b =>
        ∃ dims : List ℕ, data = dims.map (fun d : ℕ => .int d) ∧ ∀ y : ℕ → K, b.Has y ↔
          (∃ x vs, a.Has x ∧ List.Forall₂ (fun e v => e.Takes x v) exprs vs ∧
            ∀ i < a.space.size, y i = assigned x dims vs i) ∧ target.Permits y := by
  refine ⟨fun b hb => ⟨?_, ?_⟩, fun rest hrest => ⟨?_, ?_⟩, fun cs linear => ?_, fun gens => ?_,
    fun data project => ?_, fun c project => ?_, fun c => ?_, fun p => ?_, fun datum count => ?_,
    fun data => ?_, fun data exprs target proper ht solid => ?_⟩
  · exact ((meet_lossless exact a b).imp fun c denotes => (denotes ha hb).has).exactly
  · exact ((joinAt_lossless exact 1 a b).imp fun c denotes => (denotes ha hb).has).exactly
  · refine ((meetArray_lossless (K := K) exact a rest).imp fun c denotes x => ?_).exactly
    rw [(denotes ha hrest).has x, List.forall_mem_cons]
  · refine ((joinArray_lossless (K := K) exact (a :: rest)).imp fun c denotes => ?_).exactly
    exact (denotes (List.forall_mem_cons.mpr ⟨ha, hrest⟩)).2
  · exact ((meetAffine_lossless exact a cs).imp fun b denotes => (denotes ha linear).has).exactly
  · exact ((addRays_lossless a gens).imp fun b denotes => (denotes ha).has).exactly
  · refine ((forget_lossless (K := K) exact a data project).imp fun b forgets => ?_).exactly
    obtain ⟨dims, checked, denotes⟩ := forgets ha
    exact ⟨dims, (Space.checkDistinct_eq_ok.mp checked).1, denotes.has⟩
  · exact ((addDimensions_lossless cfg a c project).imp fun b extended => (extended ha).has).exactly
  · refine ((removeDimensions_lossless (K := K) exact a c).imp fun b restricts => ?_).exactly
    obtain ⟨dims, only⟩ := restricts ha
    exact ⟨dims, positions_of_checked only.checked, only.has⟩
  · exact ((permute_lossless a p).imp fun b denotes => (denotes ha).has).exactly
  · exact ((expand_lossless cfg a datum count).imp fun b expanded => expanded ha).exactly
  · exact ((fold_lossless exact a data).imp fun b folded => folded ha).exactly
  · exact ((assignAffine_lossless exact a data exprs target).imp fun b image =>
      image ha ht solid proper).exactly

/-- The points with `0 ≤ x + y ≤ 5/2` and `y ≥ 1/4`. -/
def leaningSample : Parallelotope :=
  ⟨⟨0, 2⟩, some ⟨[[1, 1], [0, 1]], [⟨.fin 0, .fin (5 / 2)⟩, ⟨.fin (1 / 4), .posInf⟩], none⟩⟩

/-- The points with `0 ≤ x ≤ 1` and `1/4 ≤ y ≤ 1/2`. -/
def boxSample : Parallelotope :=
  ⟨⟨0, 2⟩, some ⟨[[1, 0], [0, 1]], [⟨.fin 0, .fin 1⟩, ⟨.fin (1 / 4), .fin (1 / 2)⟩], none⟩⟩

theorem leaningSample_solid : leaningSample.Solid := by
  refine solid_mk ⟨rfl, Frame.regular_of_invert? ⟨rfl, by decide⟩ rfl ?_, ?_⟩
  · decide +kernel
  · decide +kernel

theorem boxSample_solid : boxSample.Solid := by
  refine solid_mk ⟨rfl, Frame.regular_of_invert? ⟨rfl, by decide⟩ rfl ?_, ?_⟩
  · decide +kernel
  · decide +kernel

/-- The constraint `2 x + 2 y ≥ 1`, or up to `2` on the right. -/
def cutSample : Constraint Affine :=
  ⟨.make [(0, .point 2), (1, .point 2)] ⟨.fin (-2), .fin (-1)⟩, .ge, none⟩

/-- The sum of both dimensions and one, and anything from `0` to `1`. -/
def shiftSample : List Affine :=
  [.make [(0, .point 1), (1, .point 1)] (.point 1), .constant ⟨.fin 0, .fin 1⟩]

/-- The box lies inside the other sample, from which the constraint cuts off a part; the assignment
takes new dimensions for a while and meets the box in the end. -/
theorem marked_results_exact_sample :
    leaningSample.Solid ∧ boxSample.Solid ∧
    (∃ b report, (leaningSample.join {} boxSample).start = (.ok b, report) ∧ report.exact = true ∧
      ∀ x : ℕ → ℚ, b.Has x ↔ leaningSample.Has x ∨ boxSample.Has x) ∧
    (∃ b report, (leaningSample.meetAffine {} [cutSample]).start = (.ok b, report) ∧
      report.exact = true ∧
      ∀ x : ℕ → ℚ, b.Has x ↔ leaningSample.Has x ∧ ∀ c ∈ [cutSample], c.HoldsAt x) ∧
    ∃ b report, (leaningSample.assignAffine {} [.int 0, .int 1] shiftSample
        (.value boxSample {})).start = (.ok b, report) ∧ report.exact = true ∧
      ∃ dims : List ℕ, [.int 0, .int 1] = dims.map (fun d : ℕ => Datum.int d) ∧ ∀ y : ℕ → ℚ, b.Has y ↔
        (∃ x vs, leaningSample.Has x ∧ List.Forall₂ (fun e v => e.Takes x v) shiftSample vs ∧
          ∀ i < leaningSample.space.size, y i = assigned x dims vs i) ∧ boxSample.Has y := by
  obtain ⟨pairs, -, systems, -, -, -, -, -, -, -, assignments⟩ :=
    marked_results_exact (K := ℚ) {} rfl leaningSample_solid
  have linear : ∀ c ∈ [cutSample], c.Linear := by
    simp only [List.forall_mem_singleton]
    exact ⟨.inr rfl, by decide +kernel⟩
  have target : Target.WellFormed (.value boxSample {}) := ⟨boxSample_solid.wellFormed, rfl⟩
  refine ⟨leaningSample_solid, boxSample_solid, ?_, ?_, ?_⟩
  · exact (pairs boxSample boxSample_solid).2.exists_marked (by decide +kernel)
  · exact (systems [cutSample] linear).exists_marked (by decide +kernel)
  · exact (assignments _ shiftSample (.value boxSample {}) (by decide +kernel) target
      boxSample_solid).exists_marked (by cbv)

/-- The values that an assignment gives to `x`, with an infinite constant, and to `y`. -/
def infiniteSample : List Affine := [.make [(0, .point 1)] (.single .posInf), .constant (.point 3)]

/-- No number is infinite, so that nothing is the image of a point; yet the result is marked exact and
has points. -/
theorem infinite_constant_marked_exact :
    (top ⟨0, 2⟩).Solid ∧ ¬ ((top ⟨0, 2⟩).assignAffine {} [.int 0, .int 1] infiniteSample .none).Exactly
      fun b => ∀ y : ℕ → ℚ, b.Has y ↔ ∃ x vs, (top ⟨0, 2⟩).Has x ∧
        List.Forall₂ (fun e v => e.Takes x v) infiniteSample vs ∧ ∀ i < 2, y i = assigned x [0, 1] vs i := by
  constructor
  · refine solid_mk ⟨rfl, Frame.regular_mk (Mat.regular_identity 2) rfl, ?_⟩
    decide +kernel
  · intro exactly
    have returns : ((top ⟨0, 2⟩).assignAffine {} [.int 0, .int 1] infiniteSample .none).start.1 =
        .ok ⟨⟨0, 2⟩, some ⟨[[1, 0], [0, 1]], [.top, .point 3], none⟩⟩ := by cbv
    have has : Has ⟨⟨0, 2⟩, some ⟨[[1, 0], [0, 1]], [.top, .point 3], none⟩⟩ fun _ => (3 : ℚ) := by
      refine ⟨_, rfl, ?_⟩
      norm_num [Frame.Has, Frame.rows]
    obtain ⟨x, vs, -, takes, -⟩ := (exactly _ _ (Prod.ext returns rfl) (by cbv) _).mp has
    cases takes with
    | cons first _ =>
      obtain ⟨_, k, -, infinite, -⟩ := first
      exact infinite.1

end SkewBox.Parallelotope
