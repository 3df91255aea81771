import SkewBox.Join

/-!
# Extrapolation

Widening gives up the ends of ranges that are not stable, narrowing takes infinite
ends back, and the epsilon operations enlarge ranges by a fraction of their size.

* `widening`, `wideningThresholds`: unstable ends go to infinity or to the next threshold.
* `narrowing`: infinite ends are refined.
* `addEpsilon`, `addEpsilonBin`: enlargement.
-/

namespace SkewBox.Parallelotope

/-- A value whose ranges are computed from those of `a` and the ranges of the same axes over `b`;
an empty operand gives way to the other. -/
def combine (cfg : Settings) (a b : Parallelotope) (step : Interval → Interval → Interval) :
    Op Parallelotope := do
  match a.frame?, b.frame? with
  | _, none => return a
  | none, some _ => Op.move b
  | some f, some g =>
    let other ← Op.about 1 (rangesOver cfg g f)
    Op.refit a.space { f with ranges := List.zipWith step f.ranges other }

/-! ## Widening and narrowing -/

/-- Gives up the ends that `J` exceeds. -/
def widenRange (I J : Interval) : Interval :=
  ⟨if I.lo ≤ J.lo then I.lo else .negInf, if J.hi ≤ I.hi then I.hi else .posInf⟩

/-- The ends of the axes' ranges that are not stable go to infinity. -/
def widening (cfg : Settings) (a b : Parallelotope) : Op Parallelotope := do
  a.checkSpace b
  combine cfg a b widenRange

def thresholdBelow (ts : List Rat) (b : Bound) : Bound :=
  (ts.filter fun t => .fin t ≤ b).foldl (fun best t => max best (.fin t)) .negInf

def thresholdAbove (ts : List Rat) (b : Bound) : Bound :=
  (ts.filter fun t => b ≤ .fin t).foldl (fun best t => min best (.fin t)) .posInf

/-- Moves the ends that `J` exceeds to the next threshold. -/
def widenTo (ts : List Rat) (I J : Interval) : Interval :=
  ⟨if J.lo < I.lo then thresholdBelow ts J.lo else I.lo,
    if I.hi < J.hi then thresholdAbove ts J.hi else I.hi⟩

/-- The ends of the axes' ranges that are not stable go to the next threshold. -/
def wideningThresholds (cfg : Settings) (a b : Parallelotope) (thresholds : List Datum) :
    Op Parallelotope := do
  a.checkSpace b
  let ts := (← thresholds.mapM (Bound.ofDatum ·)).filterMap Bound.toRat?
  combine cfg a b (widenTo ts)

/-- Takes the ends of `J` in place of infinite ones. -/
def narrowRange (I J : Interval) : Interval :=
  ⟨if I.lo.isFinite then I.lo else J.lo, if I.hi.isFinite then I.hi else J.hi⟩

/-- Infinite ends of the axes' ranges are refined from `b`. -/
def narrowing (cfg : Settings) (a b : Parallelotope) : Op Parallelotope := do
  a.checkSpace b
  match a.frame?, b.frame? with
  | none, _ => return a
  | some _, none => Op.move (bottom a.space)
  | some _, some _ => (← combine cfg a b narrowRange).tidy cfg

/-! ## Enlargement -/

/-- The factor by which a value is enlarged. -/
def epsilonOf (eps : Datum) : Except Error Rat := do
  match ← Bound.ofDatum eps with
  | .fin q => if q < 0 then throw (.badEpsilon eps.render) else return q
  | _ => throw (.badEpsilon eps.render)

/-- Moves the chosen finite ends outward by `delta`. -/
def enlarge (p : Precision) (delta : Bound) (lower upper : Bool) (I : Interval) : Interval :=
  ⟨if lower && I.lo.isFinite then p.sub .down I.lo delta else I.lo,
    if upper && I.hi.isFinite then p.add .up I.hi delta else I.hi⟩

/-- Enlarges every finite end by `eps` times the greatest distance of an end from zero. -/
def addEpsilon (cfg : Settings) (a : Parallelotope) (eps : Datum) : Op Parallelotope := do
  let e ← epsilonOf eps
  match a.frame?, a.magnitude? with
  | some f, some m =>
    let delta := cfg.precision.mul .up (.fin e) (.fin m)
    Op.refit a.space { f with ranges := f.ranges.map (enlarge cfg.precision delta true true) }
  | _, _ => return a

/-- Enlarges the ends that `b` exceeds, by `eps` times the greatest distance of an end of `b`
from zero. -/
def addEpsilonBin (cfg : Settings) (a b : Parallelotope) (eps : Datum) :
    Op Parallelotope := do
  a.checkSpace b
  let e ← epsilonOf eps
  match a.frame?, b.frame?, b.magnitude? with
  | some _, some _, none => return a
  | _, _, m =>
    let delta := cfg.precision.mul .up (.fin e) (.fin (m.getD 0))
    combine cfg a b fun I J =>
      enlarge cfg.precision delta (J.lo < I.lo) (I.hi < J.hi) I

end SkewBox.Parallelotope
