import SkewBox.Session
import SkewBox.Proofs.Calls

/-!
# Sessions in shape

Domains run operations on the objects of a session, in place or not.  Objects that domains made share
no rows, so that an operation changes its subject and nothing else, and every object stays well-formed
over whole runs.

* `Session.Sound`: objects that are well-formed and stored apart from each other.
* `Session.Sound.operands`: the operands that such a session offers to calls.
* `Session.Sound.remember`, `add`, `write`: one lemma for each way in which objects change.
* `Session.Sound.perform`, `performAll`: a step of a domain, and a run of steps.
-/

namespace SkewBox

theorem Parallelotope.WellFormed.remember {a : Parallelotope} (ha : a.WellFormed) :
    a.remember.WellFormed := by
  cases hf : a.frame? with
  | none => simpa [Parallelotope.remember, hf] using ha
  | some f =>
    obtain ⟨regular, ordered⟩ := ha f hf
    obtain ⟨w, remembered, inverse⟩ := regular.exists_remember
    simp only [Parallelotope.remember, hf, remembered]
    refine Parallelotope.shaped_mk ⟨regular.axes, regular.ranges, fun v hv => ?_⟩ ordered
    exact Option.some.inj hv ▸ inverse

namespace Session

/-- Objects are stored below the first free place, different ones in different places. -/
structure Apart (s : Session) (place : Object → ℕ) : Prop where
  below : ∀ (i : Ref) (o : Object), s.objects[i]? = some o → place o < s.free
  distinct : ∀ (i j : Ref) (o p : Object), i ≠ j → s.objects[i]? = some o → s.objects[j]? = some p →
    place o ≠ place p

/-- Every object is well-formed, without ranges beside its axes, and no two objects store their axes
or their ranges in one place. -/
structure Sound (s : Session) : Prop where
  values : ∀ (i : Ref) (o : Object), s.objects[i]? = some o → o.value.WellFormed ∧ o.spare = none
  axes : s.Apart (·.axesAt)
  ranges : s.Apart (·.rangesAt)

variable {s t : Session}

/-! ## Reading -/

theorem Sound.value (sound : s.Sound) (r : Ref) : (s.value r).WellFormed := by
  unfold Session.value
  split
  · rename_i o found
    exact (sound.values r o found).1
  · exact Parallelotope.shaped_bottom _

theorem Sound.shared (sound : s.Sound) {r o : Ref} (other : r ≠ o) : s.shared r o = {} := by
  unfold Session.shared
  split
  · rename_i x y hx hy
    have axes := sound.axes.distinct r o x y other hx hy
    have ranges := sound.ranges.distinct r o x y other hx hy
    unfold Object.shared
    split
    · rfl
    · simp [axes, ranges]
  · rfl

theorem Sound.operands (sound : s.Sound) : s.operands.Sound where
  wellFormed := sound.value
  apart _ _ := sound.shared

/-! ## Changing objects -/

section Change

variable {place : Object → ℕ} {f : Ref → Object → Object}

/-- Objects stay apart when they are changed in their places and at most one of them moves to the
first free place. -/
theorem Apart.map (apart : s.Apart place) (r : Ref) (free : s.free ≤ t.free)
    (objects : ∀ i : Ref, t.objects[i]? = s.objects[i]?.map (f i))
    (others : ∀ (i : Ref) (o : Object), i ≠ r → place (f i o) = place o)
    (subject : ∀ o, place (f r o) = place o ∨ place (f r o) = s.free ∧ s.free < t.free) :
    t.Apart place where
  below i p hp := by
    obtain ⟨o, ho, rfl⟩ := Option.map_eq_some_iff.mp ((objects i).symm.trans hp)
    have old := apart.below i o ho
    -- Only `r` may have moved, and then to the first free place.
    by_cases moved : i = r
    · subst moved
      rcases subject o with same | ⟨fresh, more⟩ <;> omega
    · have same := others i o moved
      omega
  distinct i j p q other hp hq := by
    obtain ⟨o, ho, rfl⟩ := Option.map_eq_some_iff.mp ((objects i).symm.trans hp)
    obtain ⟨o', ho', rfl⟩ := Option.map_eq_some_iff.mp ((objects j).symm.trans hq)
    have old := apart.distinct i j o o' other ho ho'
    have below := apart.below i o ho
    have below' := apart.below j o' ho'
    by_cases moved : i = r
    · subst moved
      have same := others j o' (Ne.symm other)
      rcases subject o with same' | ⟨fresh, -⟩ <;> omega
    · have same := others i o moved
      by_cases moved' : j = r
      · subst moved'
        rcases subject o' with same' | ⟨fresh, -⟩ <;> omega
      · have same' := others j o' moved'
        omega

/-- Keeping inverses changes neither what objects stand for nor where they are stored. -/
theorem Sound.remember (sound : s.Sound) (rs : List Ref) : (s.remember rs).Sound := by
  suffices one : ∀ (s : Session) (r : Ref), s.Sound →
      (s.update r fun o => { o with value := o.value.remember }).Sound by
    unfold Session.remember
    induction rs generalizing s with
    | nil => exact sound
    | cons r rs ih => exact ih (one s r sound)
  -- Keeping an inverse moves nothing and changes no rows.
  intro s r sound
  have objects : ∀ i : Ref, (s.update r fun o => { o with value := o.value.remember }).objects[i]? =
      s.objects[i]?.map fun o => if r = i then { o with value := o.value.remember } else o :=
    fun i => List.getElem?_modify ..
  have unmoved : ∀ (i : Ref) (o : Object),
      (if r = i then { o with value := o.value.remember } else o).axesAt = o.axesAt ∧
        (if r = i then { o with value := o.value.remember } else o).rangesAt = o.rangesAt := by
    intro i o
    split <;> exact ⟨rfl, rfl⟩
  refine ⟨fun i p hp => ?_,
    sound.axes.map r le_rfl objects (fun i o _ => (unmoved i o).1) fun o => .inl (unmoved r o).1,
    sound.ranges.map r le_rfl objects (fun i o _ => (unmoved i o).2) fun o => .inl (unmoved r o).2⟩
  obtain ⟨o, ho, rfl⟩ := Option.map_eq_some_iff.mp ((objects i).symm.trans hp)
  obtain ⟨wellFormed, none⟩ := sound.values i o ho
  split
  · exact ⟨wellFormed.remember, none⟩
  · exact ⟨wellFormed, none⟩

/-- A new content reaches its object only, since no other shares its rows. -/
theorem Sound.getElem?_write (sound : s.Sound) (r : Ref) (a : Parallelotope) (w : Stored) (i : Ref) :
    (s.write r a w).objects[i]? =
      s.objects[i]?.map fun o => if i = r then relocate s.free w a o else o := by
  refine List.getElem?_mapIdx.trans (congrArg (Option.map · s.objects[i]?) (funext fun o => ?_))
  by_cases subject : i = r
  · simp only [if_pos subject]
  · simp only [if_neg subject, sound.shared (Ne.symm subject), Stored.seenBy_none]

theorem Sound.write (sound : s.Sound) (r : Ref) {a : Parallelotope} (ha : a.WellFormed) (w : Stored) :
    (s.write r a w).Sound := by
  have objects := sound.getElem?_write r a w
  have more : s.free < (s.write r a w).free := Nat.lt_succ_self _
  refine ⟨fun i p hp => ?_, sound.axes.map r more.le objects (fun i o other => by rw [if_neg other])
    fun o => ?_, sound.ranges.map r more.le objects (fun i o other => by rw [if_neg other]) fun o => ?_⟩
  · obtain ⟨o, ho, rfl⟩ := Option.map_eq_some_iff.mp ((objects i).symm.trans hp)
    obtain ⟨wellFormed, none⟩ := sound.values i o ho
    split
    · refine ⟨ha, ?_⟩
      simp [relocate, none]
    · exact ⟨wellFormed, none⟩
  · -- Rows that are not written in place move to the first free one.
    rw [if_pos rfl, relocate]
    dsimp only
    split
    · exact .inl rfl
    · exact .inr ⟨rfl, more⟩
  · rw [if_pos rfl, relocate]
    dsimp only
    split
    · exact .inl rfl
    · exact .inr ⟨rfl, more⟩

theorem getElem?_concat_eq_some {l : List Object} {x o : Object} {i : ℕ}
    (h : (l ++ [x])[i]? = some o) : l[i]? = some o ∨ i = l.length ∧ o = x := by
  rw [List.getElem?_append, List.getElem?_singleton] at h
  split at h
  · exact .inl h
  · rename_i old
    split at h
    · exact .inr ⟨by omega, (Option.some.inj h).symm⟩
    · nomatch h

theorem Apart.concat {o : Object} (apart : s.Apart place) (objects : t.objects = s.objects ++ [o])
    (free : t.free = s.free + 1) (fresh : place o = s.free) : t.Apart place where
  below i p hp := by
    rcases getElem?_concat_eq_some (objects ▸ hp) with old | ⟨-, rfl⟩
    · have := apart.below i p old
      omega
    · omega
  distinct i j p q other hp hq := by
    rcases getElem?_concat_eq_some (objects ▸ hp) with hp | ⟨hi, new⟩ <;>
      rcases getElem?_concat_eq_some (objects ▸ hq) with hq | ⟨hj, new'⟩
    · exact apart.distinct i j p q other hp hq
    · have := apart.below i p hp
      rw [new']
      omega
    · have := apart.below j q hq
      rw [new]
      omega
    · exact absurd (hi.trans hj.symm) other

theorem Sound.add (sound : s.Sound) (owner : ℕ) {a : Parallelotope} (ha : a.WellFormed) :
    (s.add owner a none).2.Sound := by
  refine ⟨fun i p hp => ?_, sound.axes.concat rfl rfl rfl, sound.ranges.concat rfl rfl rfl⟩
  rcases getElem?_concat_eq_some hp with old | ⟨-, rfl⟩
  · exact sound.values i p old
  · exact ⟨ha, rfl⟩

end Change

/-! ## Steps -/

/-- A run gives well-formed values, and leaves such a value where it fails. -/
structure Run.Sound (x : Run) : Prop where
  left : ∀ a, x.report.left = some a → a.WellFormed
  effect : ∀ e, x.result = .ok e → e.WellFormed

theorem Sound.runCall (sound : s.Sound) (cfg : Settings) (thresholds : List Datum) (consume : Bool)
    (c : Call) : (s.runCall cfg thresholds consume c).Sound := by
  have kept : Op.Keeps True True (c.run cfg thresholds s.operands consume) (·.WellFormed) :=
    Call.run_keeps sound.operands thresholds consume c
  obtain ⟨left, result⟩ := kept {} fun _ h => nomatch h
  refine ⟨left, fun e ok => ?_⟩
  have returned : (c.run cfg thresholds s.operands consume {}).1 = .ok e := ok
  rwa [returned] at result

variable {x : Run}

theorem Run.Sound.content (hx : x.Sound) {a : Parallelotope} (ha : a.WellFormed) :
    (x.content a).WellFormed := by
  unfold Run.content
  split
  · rename_i b ok
    exact hx.effect _ ok
  · rename_i b y ok
    exact (hx.effect _ ok).elim
  · cases left : x.report.left with
    | none => exact ha
    | some b => exact hx.left b left

theorem Sound.follow (sound : s.Sound) (hx : x.Sound) : (s.follow x).Sound := by
  have remembered := sound.remember x.touched
  unfold Session.follow
  dsimp only
  split
  · exact remembered
  · rename_i r subject
    have content := hx.content (remembered.value r)
    refine remembered.write r ?_ _
    split
    · exact content.remember
    · exact content

theorem Sound.settle (sound : s.Sound) (hx : x.Sound) (owner : ℕ) : (s.settle owner x).2.Sound := by
  have followed := sound.follow hx
  unfold Session.settle
  cases result : x.result with
  | error e => exact followed
  | ok e =>
    have effect := hx.effect e result
    cases e with
    | answer y => exact followed
    | changeFor a y => exact effect.elim
    | createBare a spare => exact effect.elim
    | create a used => cases used <;> exact followed.add owner effect
    | change a =>
      dsimp only
      split
      · exact followed
      · exact followed.add owner effect

theorem Sound.withDomains (sound : s.Sound) (domains : List Domain) : Sound { s with domains } where
  values := sound.values
  axes := ⟨sound.axes.below, sound.axes.distinct⟩
  ranges := ⟨sound.ranges.below, sound.ranges.distinct⟩

theorem Sound.perform (sound : s.Sound) (k : ℕ) (consume : Bool) (c : Call) :
    (s.perform k consume c).2.Sound :=
  (sound.withDomains _).settle (sound.runCall _ _ (consume && c.mayConsume) c) k

/-! ## Runs -/

/-- An operation that the domain at a place is asked for, consuming its operand or not. -/
structure Step where
  domain : ℕ
  consume : Bool
  call : Call

/-- The session after some operations, of which any may have failed. -/
def performAll (s : Session) (steps : List Step) : Session :=
  steps.foldl (fun s x => (s.perform x.domain x.consume x.call).2) s

theorem sound_empty (domains : List Domain) : Sound { domains } where
  values := nofun
  axes := ⟨nofun, nofun⟩
  ranges := ⟨nofun, nofun⟩

theorem Sound.performAll (sound : s.Sound) (steps : List Step) : (s.performAll steps).Sound := by
  unfold Session.performAll
  induction steps generalizing s with
  | nil => exact sound
  | cons x steps ih => exact ih (sound.perform x.domain x.consume x.call)

/-- After any run of operations, of any domains and consuming their operands or not, every value that
can be referred to is empty without axes and ranges, or has as many axes as its space has
dimensions, which form an invertible matrix, as many ranges, none of them with its ends in the wrong
order, and keeps no inverse or that of its axes. -/
theorem runs_keep_representation (domains : List Domain) (steps : List Step) (r : Ref) :
    let s := performAll { domains } steps
    let a := s.value r
    a.frame? = none ∧ s.operands.spare r = none ∨
      ∃ f, a.frame? = some f ∧ f.axes.Regular a.space.size ∧ f.ranges.length = a.space.size ∧
        (∀ I ∈ f.ranges, I.lo ≤ I.hi) ∧
        ∀ w, f.inverse? = some w → w.IsInverse f.axes a.space.size := by
  intro s a
  have sound : s.Sound := (sound_empty domains).performAll steps
  cases frame : a.frame? with
  | none =>
    refine .inl ⟨rfl, ?_⟩
    cases found : s.objects[r]? with
    | none => simp [Session.operands, found]
    | some o => simp [Session.operands, found, (sound.values r o found).2]
  | some f =>
    obtain ⟨regular, ordered⟩ := sound.value r f frame
    exact .inr ⟨f, rfl, regular.axes, regular.ranges, ordered trivial, regular.inverse⟩

end Session

end SkewBox
