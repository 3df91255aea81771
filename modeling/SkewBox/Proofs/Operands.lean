import SkewBox.Proofs.Atomicity
import SkewBox.Proofs.Iteration
import SkewBox.Session.Owned

/-!
# Operands of operations

An operation of a domain changes no object but its subject, and that only if it may consume it.  What
it gives is the same whether it consumes its subject or works on a copy, and if it is refused nothing
has changed at all.

* `Session.contents`: what can be seen of the objects of a session.
* `Session.operations_touch_their_subject`: the objects after an operation.
-/

namespace SkewBox

/-! ## What can be seen -/

/-- What can be seen of a value: its space, and its axes and ranges if it is not empty. -/
def Parallelotope.seen (a : Parallelotope) : Space × Option (Mat × List Interval) :=
  (a.space, a.content)

theorem Parallelotope.seen_remember (a : Parallelotope) : a.remember.seen = a.seen := by
  obtain ⟨s, _ | f⟩ := a
  · rfl
  · simp only [remember]
    cases kept : f.remember with
    | error e => rfl
    | ok g =>
      obtain ⟨w, -, same⟩ := bind_eq_ok.mp kept
      cases same
      rfl

/-- What can be seen of an object: its value, and ranges that it was given without axes. -/
def Object.content (o : Object) : (Space × Option (Mat × List Interval)) × Option (List Interval) :=
  (o.value.seen, o.spare)

namespace Session

/-- What can be seen of the objects. -/
def contents (s : Session) : List ((Space × Option (Mat × List Interval)) × Option (List Interval)) :=
  s.objects.map Object.content

variable {s : Session} {x : Run}

theorem getElem?_contents (s : Session) (r : Ref) : s.contents[r]? = s.objects[r]?.map Object.content :=
  List.getElem?_map ..

/-! ## Changes of objects -/

theorem contents_remember (s : Session) (rs : List Ref) : (s.remember rs).contents = s.contents := by
  induction rs generalizing s with
  | nil => rfl
  | cons r rs ih =>
    refine (ih _).trans (List.ext_getElem? fun i => ?_)
    have objects : (s.update r fun o => { o with value := o.value.remember }).objects[i]? =
        s.objects[i]?.map fun o => if r = i then { o with value := o.value.remember } else o :=
      List.getElem?_modify ..
    rw [getElem?_contents, getElem?_contents, objects, Option.map_map]
    cases s.objects[i]? with
    | none => rfl
    | some o =>
      simp only [Option.map_some, Function.comp_apply, Option.some.injEq]
      split
      · simp only [Object.content, Parallelotope.seen_remember]
      · rfl

theorem Sound.contents_write (sound : s.Sound) (r : Ref) (a : Parallelotope) (w : Stored) :
    (s.write r a w).contents = s.contents.set r (a.seen, none) := by
  apply List.ext_getElem?
  intro i
  rw [getElem?_contents, sound.getElem?_write, Option.map_map]
  by_cases same : r = i
  · subst same
    rw [List.getElem?_set_self', getElem?_contents]
    cases found : s.objects[r]? with
    | none => rfl
    | some o =>
      have spare := (sound.values r o found).2
      simp [Object.content, relocate, spare]
  · rw [List.getElem?_set_ne same, getElem?_contents]
    simp only [if_neg (Ne.symm same), Function.comp_def]

theorem Sound.contents_set (sound : s.Sound) (r : Ref) :
    s.contents.set r ((s.value r).seen, none) = s.contents := by
  apply List.ext_getElem?
  intro i
  by_cases same : r = i
  · subst same
    rw [List.getElem?_set_self', getElem?_contents, Session.value]
    cases found : s.objects[r]? with
    | none => rfl
    | some o =>
      have spare := (sound.values r o found).2
      simp [Object.content, spare]
  · rw [List.getElem?_set_ne same]

theorem Sound.contents_follow (sound : s.Sound) (x : Run) : (s.follow x).contents =
    match x.subject with
    | none => s.contents
    | some r => s.contents.set r ((x.content ((s.remember x.touched).value r)).seen, none) := by
  unfold Session.follow
  cases x.subject with
  | none => exact contents_remember s _
  | some r =>
    dsimp only
    rw [(sound.remember _).contents_write, contents_remember]
    split
    · rw [Parallelotope.seen_remember]
    · rfl

theorem Sound.contents_follow_of_left (sound : s.Sound) {e : Error} (fails : x.result = .error e)
    (left : x.subject.isSome → x.report.left = none) : (s.follow x).contents = s.contents := by
  rw [sound.contents_follow]
  cases subject : x.subject with
  | none => rfl
  | some r =>
    have unchanged : x.content ((s.remember x.touched).value r) = (s.remember x.touched).value r := by
      simp only [Run.content, fails, left (by rw [subject]; rfl), Option.getD_none]
    dsimp only
    rw [unchanged, ← contents_remember s x.touched]
    exact (sound.remember _).contents_set r

/-- Whatever a run comes to, no register changes and objects are only added. -/
theorem contents_settle (s : Session) (k : ℕ) (x : Run) :
    (s.settle k x).2.registers = s.registers ∧
      ∃ added, (s.settle k x).2.contents = (s.follow x).contents ++ added := by
  -- Following a run touches the objects only.
  have registers : (s.follow x).registers = s.registers := by
    have kept : ∀ rs : List Ref, (s.remember rs).registers = s.registers := by
      intro rs
      generalize s = t
      induction rs generalizing t with
      | nil => rfl
      | cons r rs ih => exact ih _
    simp only [follow]
    cases x.subject with
    | none => exact kept _
    | some r => exact kept _
  have same : ∃ added, (s.follow x).contents = (s.follow x).contents ++ added :=
    ⟨[], (List.append_nil _).symm⟩
  have more : ∀ a spare, ∃ added,
      ((s.follow x).add k a spare).2.contents = (s.follow x).contents ++ added := by
    intro a spare
    exact ⟨[(a.seen, spare)], by simp [add, contents, Object.content]⟩
  -- One case for each effect: only a created object, or a change without a subject, adds a content.
  unfold settle
  cases x.result with
  | error e => exact ⟨registers, same⟩
  | ok e =>
    cases e with
    | answer y => exact ⟨registers, same⟩
    | changeFor a y => exact ⟨registers, same⟩
    | createBare a spare => exact ⟨registers, more a spare⟩
    | create a used => cases used <;> exact ⟨registers, more a none⟩
    | change a =>
      cases x.subject with
      | some r => exact ⟨registers, same⟩
      | none => exact ⟨registers, more a none⟩

end Session

/-! ## Calls -/

/-- A call on different operands, of which no two share rows, does the same whether it consumes its
subject or a copy of it. -/
theorem Call.run_consume {ops : Operands} (sound : ops.Sound) (cfg : Settings) (thresholds : List Datum)
    {c : Call} (distinct : c.operands.Nodup) :
    c.run cfg thresholds ops true = c.run cfg thresholds ops false := by
  cases c with
  | transfer t a target =>
    have same : targetOf ops true a target = targetOf ops false a target := by
      cases target with
      | none => rfl
      | some b =>
        have other : a ≠ b := by simpa [operands] using distinct
        simp [targetOf, other, sound.apart a b other]
    simp only [run, same]
  | _ => rfl

theorem Call.mem_operands {c : Call} {r : Ref} (subject : c.subject? = some r) : r ∈ c.operands := by
  cases c with
  | transform t a => simpa [subject?, operands, eq_comm] using subject
  | combine c a b => simp_all [subject?, operands]
  | transfer t a target => simp_all [subject?, operands]
  | _ => cases subject

theorem Call.exists_subject {c : Call} (consumes : c.mayConsume) : ∃ r, c.subject? = some r := by
  cases c with
  | transform t a => exact ⟨a, rfl⟩
  | combine c a b => exact ⟨a, rfl⟩
  | transfer t a target => exact ⟨a, rfl⟩
  | _ => cases consumes

theorem Call.run_change {ops : Operands} {cfg : Settings} {thresholds : List Datum} {consume : Bool}
    {c : Call} {r : Ref} (subject : c.subject? = some r) {e : Effect}
    (returns : (c.run cfg thresholds ops consume).start.1 = .ok e) : ∃ a, e = .change a := by
  have any : ∀ x : Op Parallelotope, (x >>= fun a => pure (Effect.change a) : Op Effect).start.1 = .ok e →
      ∃ a, e = .change a := by
    intro x returned
    rw [Op.start, Op.run_bind_pure] at returned
    cases result : (x {}).1 with
    | error cause =>
      rw [result] at returned
      cases returned
    | ok a =>
      rw [result] at returned
      cases returned
      exact ⟨a, rfl⟩
  cases c with
  | transform t a => exact any _ returns
  | combine c a b => exact any _ returns
  | transfer t a target => exact any _ returns
  | _ => cases subject

namespace Session

variable {s : Session} {x : Run} {a : Parallelotope} {r : Ref}

/-! ## Operations -/

theorem Sound.length_follow (sound : s.Sound) (x : Run) :
    (s.follow x).contents.length = s.objects.length := by
  rw [sound.contents_follow]
  cases x.subject with
  | none => simp [contents]
  | some r => simp [contents]

theorem Sound.getElem?_follow (sound : s.Sound) (other : x.subject ≠ some r) :
    (s.follow x).contents[r]? = s.contents[r]? := by
  rw [sound.contents_follow]
  cases subject : x.subject with
  | none => rfl
  | some r' =>
    refine List.getElem?_set_ne fun same => other ?_
    rw [subject, same]

theorem Sound.getElem?_follow_change (sound : s.Sound) (changes : x.result = .ok (.change a))
    (subject : x.subject = some r) (inside : r < s.objects.length) :
    (s.follow x).contents[r]? = some (a.seen, none) := by
  have content : x.content ((s.remember x.touched).value r) = a := by simp only [Run.content, changes]
  rw [sound.contents_follow, subject]
  dsimp only
  rw [content, List.getElem?_set_self (by simpa [contents] using inside)]

theorem Sound.perform_frame (sound : s.Sound) (k : ℕ) (consume : Bool) (c : Call) :
    (s.perform k consume c).2.registers = s.registers ∧
      ∀ r < s.objects.length, (s.perform k consume c).2.contents[r]? = s.contents[r]? ∨
        consume ∧ c.mayConsume ∧ c.subject? = some r := by
  let x := s.runCall (s.domain k).config.settings (s.domain k).config.thresholds
    (consume && c.mayConsume) c
  let t : Session := { s with domains := s.domains.set k ((s.domain k).record x.result x.report) }
  have apart : t.Sound := sound.withDomains _
  obtain ⟨registers, added, settled⟩ := contents_settle t k x
  refine ⟨registers, fun r inside => ?_⟩
  have performed : (s.perform k consume c).2.contents[r]? = (t.follow x).contents[r]? := by
    refine (congrArg (·[r]?) settled).trans (List.getElem?_append_left ?_)
    rwa [apart.length_follow]
  by_cases subject : x.subject = some r
  · have consumed : (if consume && c.mayConsume then c.subject? else none) = some r := subject
    cases both : consume && c.mayConsume with
    | false => simp [both] at consumed
    | true =>
      rw [both, if_pos rfl] at consumed
      exact .inr ⟨(Bool.and_eq_true_iff.mp both).1, (Bool.and_eq_true_iff.mp both).2, consumed⟩
  · exact .inl (performed.trans (apart.getElem?_follow subject))

/-- What an operation with a subject comes to: its failure, or an object with the new content, which is
the subject if that is consumed. -/
theorem Sound.perform_change (sound : s.Sound) (k : ℕ) (consume : Bool) {c : Call}
    (consumes : c.mayConsume) (subject : c.subject? = some r) :
    let result := (c.run (s.domain k).config.settings (s.domain k).config.thresholds s.operands
      consume).start.1
    (∀ e, result = .error e → (s.perform k consume c).1 = .error ⟨some c.operation, e⟩) ∧
    ∀ e, result = .ok e → ∃ r' a, e = .change a ∧ (s.perform k consume c).1 = .ok (.object r') ∧
      (consume → r' = r) ∧
      (r < s.objects.length → (s.perform k consume c).2.contents[r']? = some (a.seen, none)) := by
  intro result
  let x := s.runCall (s.domain k).config.settings (s.domain k).config.thresholds consume c
  let t : Session := { s with domains := s.domains.set k ((s.domain k).record x.result x.report) }
  have apart : t.Sound := sound.withDomains _
  -- The operation may consume, so the flag reaches it as it was given.
  have performed : s.perform k consume c =
      ((t.settle k x).1.mapError (⟨some c.operation, ·⟩), (t.settle k x).2) := by
    have possible : (consume && c.mayConsume) = consume := by rw [consumes, Bool.and_true]
    unfold Session.perform
    rw [possible]
  rw [performed]
  constructor
  · intro e fails
    have failed : x.result = .error e := fails
    rw [settle_error failed]
    rfl
  · intro e returns
    obtain ⟨a, rfl⟩ := Call.run_change subject returns
    have changes : x.result = .ok (.change a) := returns
    -- A consumed operand is overwritten; otherwise a fresh object holds the result.
    cases consume with
    | true =>
      have chosen : x.subject = some r := subject
      have settled : t.settle k x = (.ok (.object r), t.follow x) := by
        simp only [Session.settle, changes, chosen]
      rw [settled]
      refine ⟨r, a, rfl, rfl, fun _ => rfl, fun inside => ?_⟩
      exact apart.getElem?_follow_change changes chosen inside
    | false =>
      have chosen : x.subject = none := rfl
      have settled : t.settle k x =
          (.ok (.object (t.follow x).objects.length), ((t.follow x).add k a none).2) := by
        simp only [Session.settle, changes, chosen]
        rfl
      rw [settled]
      refine ⟨_, a, rfl, rfl, by simp, fun _ => ?_⟩
      simp [contents, Session.add, Object.content]

theorem Sound.perform_reply (sound : s.Sound) (k : ℕ) {c : Call} (consumes : c.mayConsume)
    {reply : Reply} (returns : (s.perform k true c).1 = .ok reply) :
    ∃ r, c.subject? = some r ∧ reply = .object r := by
  obtain ⟨r, subject⟩ := c.exists_subject consumes
  obtain ⟨fails, changes⟩ := sound.perform_change k true consumes subject
  refine ⟨r, subject, ?_⟩
  cases result : (c.run (s.domain k).config.settings (s.domain k).config.thresholds s.operands
      true).start.1 with
  | error e =>
    rw [fails e result] at returns
    cases returns
  | ok e =>
    obtain ⟨r', a, -, replied, same, -⟩ := changes e result
    rw [replied, same rfl] at returns
    cases returns
    rfl

theorem Sound.perform_same (sound : s.Sound) (k : ℕ) {c : Call} (consumes : c.mayConsume)
    (distinct : c.operands.Nodup) (inside : ∀ r ∈ c.operands, r < s.objects.length) :
    (∃ failure, (s.perform k true c).1 = .error failure ∧ (s.perform k false c).1 = .error failure) ∨
      ∃ r r' content, (s.perform k true c).1 = .ok (.object r) ∧
        (s.perform k false c).1 = .ok (.object r') ∧
        (s.perform k true c).2.contents[r]? = some content ∧
        (s.perform k false c).2.contents[r']? = some content := by
  obtain ⟨r, subject⟩ := c.exists_subject consumes
  have stored := inside r (c.mem_operands subject)
  obtain ⟨fails, changes⟩ := sound.perform_change k true consumes subject
  obtain ⟨fails', changes'⟩ := sound.perform_change k false consumes subject
  rw [Call.run_consume sound.operands _ _ distinct] at fails changes
  cases result : (c.run (s.domain k).config.settings (s.domain k).config.thresholds s.operands
      false).start.1 with
  | error e => exact .inl ⟨_, fails e result, fails' e result⟩
  | ok e =>
    obtain ⟨r₁, a, rfl, replied, -, seen⟩ := changes e result
    obtain ⟨r₂, b, same, replied', -, seen'⟩ := changes' _ result
    cases same
    exact .inr ⟨r₁, r₂, _, replied, replied', seen stored, seen' stored⟩

theorem exists_settle_eq {e : Effect} (returns : x.result = .ok e) (s : Session) (k : ℕ) :
    ∃ reply, (s.settle k x).1 = .ok reply := by
  simp only [settle, returns]
  cases e with
  | create a used => cases used <;> exact ⟨_, rfl⟩
  | change a => cases x.subject <;> exact ⟨_, rfl⟩
  | _ => exact ⟨_, rfl⟩

theorem Sound.perform_refused (sound : s.Sound) (k : ℕ) (consume : Bool) (c : Call)
    {failure : Failure} (fails : (s.perform k consume c).1 = .error failure)
    (refused : ∀ fault, failure.cause.family ≠ .fault fault) :
    (s.perform k consume c).2.contents = s.contents := by
  let x := s.runCall (s.domain k).config.settings (s.domain k).config.thresholds
    (consume && c.mayConsume) c
  let t : Session := { s with domains := s.domains.set k ((s.domain k).record x.result x.report) }
  have apart : t.Sound := sound.withDomains _
  have failed : (t.settle k x).1.mapError (⟨some c.operation, ·⟩) = .error failure := fails
  cases result : x.result with
  | ok e =>
    obtain ⟨reply, replied⟩ := exists_settle_eq result t k
    rw [replied] at failed
    cases failed
  | error e =>
    have settled : t.settle k x = (.error e, t.follow x) := by simp only [Session.settle, result]
    rw [settled] at failed
    cases failed
    show (t.settle k x).2.contents = t.contents
    rw [settled]
    refine apart.contents_follow_of_left result fun consumed => ?_
    -- Only a call with a subject consumes it, and such a call checks its arguments first.
    obtain ⟨r, subject⟩ : ∃ r, c.subject? = some r := by
      have chosen : (if consume && c.mayConsume then c.subject? else none).isSome := consumed
      split at chosen
      · exact Option.isSome_iff_exists.mp chosen
      · cases chosen
    have careful : Op.Careful (c.run (s.domain k).config.settings (s.domain k).config.thresholds
        s.operands (consume && c.mayConsume)) := Call.run_careful sound.operands _ _ subject
    rcases careful {} rfl e result with ⟨fault, rfl⟩ | left
    · exact absurd rfl (refused fault)
    · exact left

theorem accept_eq_ok_iff {user r : Ref} {h : Handle} :
    s.accept user h = .ok r ↔ h = .object r ∧ s.owner r = s.owner user := by
  cases h with
  | answer _ _ | datum _ => simp [accept]
  | object r' =>
    by_cases same : s.owner r' = s.owner user
    · simp only [accept, if_pos same, Except.ok.injEq, Handle.object.injEq]
      exact ⟨fun equal => ⟨equal, equal ▸ same⟩, And.left⟩
    · simp only [accept, if_neg same]
      constructor
      · intro accepted
        obtain ⟨_, -, accepted⟩ := bind_eq_ok.mp accepted
        obtain ⟨_, -, accepted⟩ := bind_eq_ok.mp accepted
        cases accepted
      · rintro ⟨⟨⟩, equal⟩
        exact absurd equal same

theorem Sound.request_refused (sound : s.Sound) (owned : Bool) (k : ℕ) (consume : Bool) (p : Plan)
    {failure : Failure} (fails : (s.request owned k consume p).1 = .error failure)
    (refused : ∀ fault, failure.cause.family ≠ .fault fault) :
    (s.request owned k consume p).2.contents = s.contents := by
  unfold request at fails ⊢
  cases resolved : s.resolve owned p with
  | error e => rfl
  | ok call =>
    rw [resolved] at fails
    exact sound.perform_refused _ consume call.1 fails refused

/-- In every state that operations of domains can reach, whatever the registers hold, an operation of
any domain leaves the registers and every object as they are, apart from its subject if it may consume
it, which is then what it gives back.  On different operands it gives the same, be it a failure or an
object with the same content, whether it consumes its subject or not.  If it is refused, for any cause
that the domain knows, no object has changed.  Where values know their domain, only objects of the
domain of the first operand are accepted beside it, and if they or the operation are refused, no object
has changed either. -/
theorem operations_touch_their_subject (domains : List Domain) (steps : List Step)
    (registers : List (String × Slot)) (k : ℕ) (consume : Bool) (c : Call) :
    let s : Session := { performAll { domains } steps with registers }
    let answer := s.perform k consume c
    answer.2.registers = registers ∧
    (∀ r < s.objects.length, answer.2.contents[r]? = s.contents[r]? ∨
      consume ∧ c.mayConsume ∧ c.subject? = some r) ∧
    (consume → c.mayConsume → ∀ reply, answer.1 = .ok reply →
      ∃ r, c.subject? = some r ∧ reply = .object r) ∧
    (c.mayConsume → c.operands.Nodup → (∀ r ∈ c.operands, r < s.objects.length) →
      (∃ failure, (s.perform k true c).1 = .error failure ∧
        (s.perform k false c).1 = .error failure) ∨
      ∃ r r' content, (s.perform k true c).1 = .ok (.object r) ∧
        (s.perform k false c).1 = .ok (.object r') ∧
        (s.perform k true c).2.contents[r]? = some content ∧
        (s.perform k false c).2.contents[r']? = some content) ∧
    (∀ failure, answer.1 = .error failure → (∀ fault, failure.cause.family ≠ .fault fault) →
      answer.2.contents = s.contents) ∧
    (∀ user h r, s.accept user h = .ok r ↔ h = .object r ∧ s.owner r = s.owner user) ∧
    ∀ owned p failure, (s.request owned k consume p).1 = .error failure →
      (∀ fault, failure.cause.family ≠ .fault fault) →
        (s.request owned k consume p).2.contents = s.contents := by
  intro s answer
  have run := (sound_empty domains).performAll steps
  -- The registers take no part in soundness, so they may be any.
  have sound : s.Sound :=
    ⟨run.values, ⟨run.axes.below, run.axes.distinct⟩, ⟨run.ranges.below, run.ranges.distinct⟩⟩
  obtain ⟨kept, others⟩ := sound.perform_frame k consume c
  refine ⟨kept, others, fun consumed consumes reply returns => ?_, sound.perform_same k,
    fun failure fails refused => sound.perform_refused k consume c fails refused,
    fun _ _ _ => accept_eq_ok_iff,
    fun owned p failure fails refused => sound.request_refused owned k consume p fails refused⟩
  cases consumed
  exact sound.perform_reply k consumes returns

/-- Two boxes over one dimension, and one over two. -/
def boxesSample : List Step :=
  [⟨0, false, .build 0 1 (.ofBox [.list [.int 0, .int 2]])⟩,
    ⟨0, false, .build 0 1 (.ofBox [.list [.int 1, .int 3]])⟩,
    ⟨0, false, .build 0 2 (.ofBox [.int 0, .int 0])⟩]

/-- With two registers for the first box: the first two boxes have the same intersection in place and
in a copy; that of the first with the last is refused and changes nothing. -/
theorem operations_touch_their_subject_sample :
    let registers := [("a", .object 0), ("b", .object 1), ("c", .object 0)]
    let s : Session := { performAll { domains := [{}] } boxesSample with registers }
    (∃ r r' content, (s.perform 0 true (.combine .meet 0 1)).1 = .ok (.object r) ∧
      (s.perform 0 false (.combine .meet 0 1)).1 = .ok (.object r') ∧
      (s.perform 0 true (.combine .meet 0 1)).2.contents[r]? = some content ∧
      (s.perform 0 false (.combine .meet 0 1)).2.contents[r']? = some content) ∧
    (s.perform 0 true (.combine .meet 0 2)).2.contents = s.contents := by
  intro registers s
  constructor
  · have three : s.objects.length = 3 := by decide +kernel
    have returns : (s.perform 0 true (.combine .meet 0 1)).1.toBool = true := by decide +kernel
    have inside : ∀ r ∈ (Call.combine .meet 0 1).operands, r < s.objects.length := by
      rw [three]
      decide
    have same := (operations_touch_their_subject [{}] boxesSample registers 0 true
      (.combine .meet 0 1)).2.2.2.1 rfl (by decide) inside
    refine same.resolve_left ?_
    rintro ⟨failure, fails, -⟩
    rw [fails] at returns
    cases returns
  · have refused : (s.perform 0 true (.combine .meet 0 2)).1 =
        .error ⟨some .meet, .spaceMismatch "Dimension(int=0, real=1)" "Dimension(int=0, real=2)"⟩ := by
      decide +kernel
    exact (operations_touch_their_subject [{}] boxesSample registers 0 true
      (.combine .meet 0 2)).2.2.2.2.1 _ refused (by simp [Error.family])

end Session

end SkewBox
