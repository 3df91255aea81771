import SkewBox.Formula
import SkewBox.Proofs.Outcome
import SkewBox.Proofs.Readers

/-!
# Texts of terms read back

A term has many texts: brackets may stand where they are not needed, white space varies, and constants
have several spellings.  Every text that has brackets at least where the binding of the operators asks
for them, and white space around binary operators, is read as the term it was written for.

* `Formula.Writes`: the texts of a term, by how tightly they bind.
* `Formula.Reads`: a reader takes a text in front of whatever may follow it.
* `Formula.Continues`: the same for a chain of operands that may go on.
* `Formula.parseTerm_of_writes`: a whole text is read as its term.
-/

namespace SkewBox.Formula

open Reader

/-! ## Texts -/

/-- How tightly a text binds: a sum, a product, a power or its negation, or a text of one piece. -/
inductive Rank where
  | sum
  | product
  | signed
  | atom
  deriving DecidableEq, Repr

/-- White space, and some of it. -/
structure Spaced (w : List Char) : Prop where
  nonempty : w ≠ []
  blank : Blank w

/-- The texts of a term.  Sums and products group to the left, powers to the right; the base of a power
is one piece and its exponent may be negated.  Brackets turn any text into one piece. -/
inductive Writes : Rank → Term → List Char → Prop where
  | point {cs : List Char} {q : ℚ} (spells : Numeral.Spells cs q) : Writes .atom (.const (.point q)) cs
  | interval {l h w₁ w₂ w₃ w₄ : List Char} {lo hi : Bound} (low : WritesBound l lo)
      (high : WritesBound h hi) (b₁ : Blank w₁) (b₂ : Blank w₂) (b₃ : Blank w₃) (b₄ : Blank w₄) :
      Writes .atom (.const ⟨lo, hi⟩) ('[' :: (w₁ ++ l ++ w₂ ++ ',' :: (w₃ ++ h ++ w₄ ++ [']'])))
  | var {ds : List Char} (digits : Numeral.IsDigits ds) :
      Writes .atom (.var (Numeral.natural ds)) ('x' :: ds)
  | call {op : UnOp} {e : Term} {t w₁ w₂ w₃ : List Char} (function : op ≠ .neg) (arg : Writes .sum e t)
      (b₁ : Blank w₁) (b₂ : Blank w₂) (b₃ : Blank w₃) :
      Writes .atom (.un op e) (op.symbol.toList ++ w₁ ++ '(' :: (w₂ ++ t ++ w₃ ++ [')']))
  | group {e : Term} {t w₁ w₂ : List Char} (arg : Writes .sum e t) (b₁ : Blank w₁) (b₂ : Blank w₂) :
      Writes .atom e ('(' :: (w₁ ++ t ++ w₂ ++ [')']))
  | ofAtom {e : Term} {t : List Char} (piece : Writes .atom e t) : Writes .signed e t
  | pow {l r : Term} {t t' w₁ w₂ : List Char} (base : Writes .atom l t) (exponent : Writes .signed r t')
      (s₁ : Spaced w₁) (s₂ : Spaced w₂) : Writes .signed (.bin .pow l r) (t ++ w₁ ++ '^' :: (w₂ ++ t'))
  | neg {e : Term} {t w : List Char} (arg : Writes .signed e t) (b : Blank w) :
      Writes .signed (.un .neg e) ('-' :: (w ++ t))
  | ofSigned {e : Term} {t : List Char} (only : Writes .signed e t) : Writes .product e t
  | mul {op : BinOp} {l r : Term} {t t' w₁ w₂ : List Char} (kind : op ∈ [.mul, .div, .rem])
      (left : Writes .product l t) (right : Writes .signed r t') (s₁ : Spaced w₁) (s₂ : Spaced w₂) :
      Writes .product (.bin op l r) (t ++ w₁ ++ (op.symbol.toList ++ (w₂ ++ t')))
  | ofProduct {e : Term} {t : List Char} (only : Writes .product e t) : Writes .sum e t
  | add {op : BinOp} {l r : Term} {t t' w₁ w₂ : List Char} (kind : op ∈ [.add, .sub])
      (left : Writes .sum l t) (right : Writes .product r t') (s₁ : Spaced w₁) (s₂ : Spaced w₂) :
      Writes .sum (.bin op l r) (t ++ w₁ ++ (op.symbol.toList ++ (w₂ ++ t')))

theorem Writes.exists_cons {rank : Rank} {e : Term} {t : List Char} (writes : Writes rank e t) :
    ∃ c tail, t = c :: tail ∧ Text.isSpace c = false ∧ (rank = .atom → c ≠ '-') := by
  -- Only a negation starts with a minus, and it is no atom.
  induction writes with
  | point spells =>
    obtain ⟨c, tail, rfl, digit⟩ := spells.exists_cons
    exact ⟨c, tail, rfl, not_isSpace_of_isNamePart (isNamePart_of_isDigit digit), fun _ =>
      Text.ne_of_isDigit digit (by decide)⟩
  | interval => exact ⟨'[', _, rfl, by decide, by decide⟩
  | var => exact ⟨'x', _, rfl, by decide, by decide⟩
  | @call op _ _ _ _ _ function =>
    cases op with
    | neg => exact absurd rfl function
    | cast => exact ⟨'c', _, rfl, by decide, by decide⟩
    | sqrt => exact ⟨'s', _, rfl, by decide, by decide⟩
  | group => exact ⟨'(', _, rfl, by decide, by decide⟩
  | neg => exact ⟨'-', _, rfl, by decide, by simp⟩
  | ofAtom _ ih | ofSigned _ ih | ofProduct _ ih =>
    obtain ⟨c, tail, rfl, space, -⟩ := ih
    exact ⟨c, tail, rfl, space, by simp⟩
  | pow _ _ _ _ ih | mul _ _ _ _ _ ih | add _ _ _ _ _ ih =>
    obtain ⟨c, tail, rfl, space, -⟩ := ih
    exact ⟨c, _, rfl, space, by simp⟩

theorem Writes.begins {rank : Rank} {e : Term} {t : List Char} (writes : Writes rank e t) :
    Begins t := by
  obtain ⟨c, tail, split, space, -⟩ := writes.exists_cons
  exact ⟨c, tail, split, space⟩

theorem Writes.ne_nil {rank : Rank} {e : Term} {t : List Char} (writes : Writes rank e t) :
    t ≠ [] := by
  obtain ⟨c, tail, rfl, -⟩ := writes.exists_cons
  simp

/-! ## What may follow -/

/-- Behind white space none of these characters comes. -/
def Next (bad : List Char) (rest : List Char) : Prop :=
  ∀ c ∈ (rest.dropWhile Text.isSpace).head?, c ∉ bad

theorem next_append {bad w : List Char} {c : Char} (blank : Blank w) (space : Text.isSpace c = false)
    (good : c ∉ bad) (rest : List Char) : Next bad (w ++ c :: rest) := by
  have back := (Text.span_append blank (head_not space rest)).2
  rw [Next, back]
  rintro d ⟨⟩
  exact good

theorem Next.mono {bad bad' : List Char} {rest : List Char} (next : Next bad rest) (le : bad' ⊆ bad) :
    Next bad' rest := fun c hc mem => next c hc (le mem)

theorem Spaced.closes {w : List Char} (spaced : Spaced w) (rest : List Char) : Closes (w ++ rest) := by
  obtain ⟨nonempty, blank⟩ := spaced
  cases w with
  | nil => exact absurd rfl nonempty
  | cons c w =>
    rintro d ⟨⟩
    exact .inl (blank c (List.mem_cons_self ..))

theorem closes_of_blank {w : List Char} (blank : Blank w) : Closes w := fun c hc =>
  .inl (blank c (List.mem_of_mem_head? hc))

theorem next_of_blank {w : List Char} (blank : Blank w) (bad : List Char) : Next bad w := by
  have nothing : (w ++ []).dropWhile Text.isSpace = [] := (Text.span_append blank (by simp)).2
  rw [List.append_nil] at nothing
  simp [Next, nothing]

theorem gives_blanks_end {w : List Char} (blank : Blank w) : Gives blanks w () [] := by
  have read : Gives blanks (w ++ []) () [] := gives_blanks blank (by simp)
  rwa [List.append_nil] at read

theorem misses_operand {op : Reader BinOp} {arg : Reader Surface} {rest : List Char}
    (missed : Misses op (rest.dropWhile Text.isSpace)) : Misses (operand op arg) rest := by
  have read : Gives blanks rest () (rest.dropWhile Text.isSpace) :=
    (show Gives (run Text.isSpace) rest (rest.takeWhile Text.isSpace) (rest.dropWhile Text.isSpace) from
      fun least => ⟨least, rfl⟩).bind (gives_pure _ _)
  exact read.bind_misses missed.bind

theorem gives_operand {op : Reader BinOp} {arg : Reader Surface} {o : BinOp} {s : Surface} {c : Char}
    {t w₁ w₂ rest : List Char} (b₁ : Blank w₁) (b₂ : Blank w₂) (space : Text.isSpace c = false)
    (sign : ∀ tail, Gives op (c :: tail) o tail) (begins : Begins t)
    (read : Gives arg (t ++ rest) s rest) :
    Gives (operand op arg) (w₁ ++ c :: (w₂ ++ (t ++ rest))) (o, s) rest :=
  (gives_blanks b₁ (head_not space _)).bind
    ((sign _).bind ((gives_blanks b₂ (begins.head rest)).bind (read.bind (gives_pure _ _))))

/-! ## Chains of operands -/

/-- With fuel for its length the reader takes the text, if it is closed and none of the characters
follows behind white space. -/
def Reads (r : ℕ → Reader Surface) (slack : ℕ) (bad t : List Char) (s : Surface) : Prop :=
  -- From one bracket to the next fewer than eight rules are entered; `slack` of them lie outside `r`.
  ∀ fuel rest, 8 * t.length ≤ fuel + slack → Closes rest → Next bad rest →
    Gives (r fuel) (t ++ rest) s rest

/-- An operand, and up to `n` more behind operators. -/
def series (r : Reader Surface) (op : Reader BinOp) (n : ℕ) : Reader Surface := do
  let first ← r
  return chain first (← many (operand op r) n)

/-- The text is the start of a chain: what is read behind it is chained to it from the right. -/
def Continues (r : ℕ → Reader Surface) (slack : ℕ) (bad : List Char) (op : Reader BinOp) (t : List Char)
    (s : Surface) : Prop :=
  ∃ k ≤ t.length, ∀ fuel, 8 * t.length ≤ fuel + slack → ∀ n rest more rest', Closes rest →
    Next bad rest → Gives (many (operand op (r fuel)) n) rest more rest' →
      Gives (series (r fuel) op (n + k)) (t ++ rest) (chain s more) rest'

variable {r : ℕ → Reader Surface} {slack : ℕ} {bad : List Char} {op : Reader BinOp} {t t' : List Char}
  {s s' : Surface}

theorem Reads.continues (reads : Reads r slack bad t s) : Continues r slack bad op t s :=
  ⟨0, Nat.zero_le _, fun fuel enough _ rest _ _ closes next later =>
    (reads fuel rest enough closes next).bind (later.bind (gives_pure _ _))⟩

theorem Continues.append (left : Continues r slack bad op t s) (right : Reads r slack bad t' s')
    (begins : Begins t') {o : BinOp} (sign : ∀ tail, Gives op (o.symbol.toList ++ tail) o tail)
    (mark : ∃ c, o.symbol.toList = [c] ∧ Text.isSpace c = false ∧ c ∉ bad)
    {w₁ w₂ : List Char} (s₁ : Spaced w₁) (s₂ : Spaced w₂) :
    Continues r slack bad op (t ++ w₁ ++ (o.symbol.toList ++ (w₂ ++ t'))) (.bin o s s') := by
  obtain ⟨c, symbol, space, good⟩ := mark
  rw [symbol] at sign ⊢
  obtain ⟨k, count, left⟩ := left
  refine ⟨k + 1, ?_, ?_⟩
  · simp only [List.length_append, List.length_cons]
    omega
  · intro fuel enough n rest more rest' closes next later
    simp only [List.length_append] at enough
    have read := gives_operand s₁.blank s₂.blank space sign begins
      (right fuel rest (by omega) closes next)
    -- Seen from the chain before it, the new operand is the first of those behind.
    have chained := left fuel (by omega) (n + 1) _ _ _ (s₁.closes _) (next_append s₁.blank space good _)
      (gives_many_cons (by simp) read later)
    have split : t ++ w₁ ++ ([c] ++ (w₂ ++ t')) ++ rest = t ++ (w₁ ++ c :: (w₂ ++ (t' ++ rest))) := by
      simp
    rw [split, ← Nat.add_assoc, Nat.add_right_comm]
    exact chained

theorem Continues.reads {r' : ℕ → Reader Surface} {bad' : List Char}
    (chained : Continues r (slack + 1) bad op t s) (nonempty : t ≠ []) (small : slack < 7)
    (unfolds : ∀ fuel, r' (fuel + 1) = rule (series (r fuel) op fuel)) (le : bad ⊆ bad')
    (missed : ∀ rest, Next bad' rest → Misses op (rest.dropWhile Text.isSpace)) :
    Reads r' slack bad' t s := by
  obtain ⟨k, count, chained⟩ := chained
  intro fuel rest enough closes next
  have positive : 0 < t.length := List.length_pos_iff.mpr nonempty
  obtain ⟨fuel, rfl⟩ := Nat.exists_eq_add_of_le' (show 1 ≤ fuel by omega)
  -- The rounds that the text leaves over find no operator.
  have read := chained fuel (by omega) (fuel - k) rest [] rest closes (next.mono le)
    (gives_many_nil (fun _ => misses_operand (missed rest next)) _)
  rw [Nat.sub_add_cancel (by omega)] at read
  rw [unfolds]
  exact read.rule

/-! ## Operators -/

theorem misses_pow {cs : List Char} (other : ∀ c ∈ cs.head?, c ∉ ['^']) :
    Misses (sign "^" BinOp.pow) cs := by
  refine misses_sign rfl _ ?_
  rintro c hc rfl
  exact absurd (other _ hc) (by decide)

theorem misses_mulSign {cs : List Char} (other : ∀ c ∈ cs.head?, c ∉ ['^', '*', '/', '%']) :
    Misses mulSign cs := by
  refine (misses_firstOf ?_).rule
  simp only [List.forall_mem_cons]
  refine ⟨misses_sign rfl _ ?_, misses_sign rfl _ ?_, misses_sign rfl _ ?_, by simp⟩
  all_goals
    rintro c hc rfl
    exact absurd (other _ hc) (by decide)

theorem misses_addSign {cs : List Char} (other : ∀ c ∈ cs.head?, c ∉ ['^', '*', '/', '%', '+', '-']) :
    Misses addSign cs := by
  refine (misses_firstOf ?_).rule
  simp only [List.forall_mem_cons]
  refine ⟨misses_sign rfl _ ?_, misses_sign rfl _ ?_, by simp⟩
  all_goals
    rintro c hc rfl
    exact absurd (other _ hc) (by decide)

theorem gives_mulSign {o : BinOp} (kind : o ∈ [.mul, .div, .rem]) (tail : List Char) :
    Gives mulSign (o.symbol.toList ++ tail) o tail := by
  have missed : ∀ {c d : Char} {text : String} {o : BinOp}, text.toList.head? = some d → c ≠ d →
      Misses (sign text o) (c :: tail) := fun first other => misses_sign first _ (head_ne other tail)
  simp only [List.mem_cons, List.not_mem_nil, or_false] at kind
  refine Gives.rule ?_
  rcases kind with rfl | rfl | rfl
  · exact (gives_sign "*" BinOp.mul tail).orElse _
  · exact (missed rfl (by decide)).orElse_gives ((gives_sign "/" BinOp.div tail).orElse _)
  · exact (missed rfl (by decide)).orElse_gives ((missed rfl (by decide)).orElse_gives
      ((gives_sign "%" BinOp.rem tail).orElse _))

theorem mark_of_mul {o : BinOp} (kind : o ∈ [.mul, .div, .rem]) :
    ∃ c, o.symbol.toList = [c] ∧ Text.isSpace c = false ∧ c ∉ ['^'] := by
  simp only [List.mem_cons, List.not_mem_nil, or_false] at kind
  rcases kind with rfl | rfl | rfl
  · exact ⟨'*', rfl, by decide, by decide⟩
  · exact ⟨'/', rfl, by decide, by decide⟩
  · exact ⟨'%', rfl, by decide, by decide⟩

theorem mark_of_add {o : BinOp} (kind : o ∈ [.add, .sub]) :
    ∃ c, o.symbol.toList = [c] ∧ Text.isSpace c = false ∧ c ∉ ['^', '*', '/', '%'] := by
  simp only [List.mem_cons, List.not_mem_nil, or_false] at kind
  rcases kind with rfl | rfl
  · exact ⟨'+', rfl, by decide, by decide⟩
  · exact ⟨'-', rfl, by decide, by decide⟩

theorem gives_addSign {o : BinOp} (kind : o ∈ [.add, .sub]) (tail : List Char) :
    Gives addSign (o.symbol.toList ++ tail) o tail := by
  simp only [List.mem_cons, List.not_mem_nil, or_false] at kind
  refine Gives.rule ?_
  rcases kind with rfl | rfl
  · exact (gives_sign "+" BinOp.add tail).orElse _
  · exact (misses_sign rfl _ (head_ne (by decide) tail)).orElse_gives
      ((gives_sign "-" BinOp.sub tail).orElse _)

/-! ## Pieces -/

theorem misses_call {cs : List Char} (other : ∀ c ∈ cs.head?, c ∉ ['s', 'c']) (fuel : ℕ) :
    Misses (call fuel) cs := by
  cases fuel with
  | zero => exact misses_fail cs
  | succ fuel =>
    have missed : Misses function cs := by
      refine (misses_firstOf ?_).rule
      simp only [List.forall_mem_cons]
      refine ⟨misses_sign rfl _ ?_, misses_sign rfl _ ?_, by simp⟩
      all_goals
        rintro c hc rfl
        exact absurd (other _ hc) (by decide)
    exact missed.bind.rule

theorem reads_number {cs : List Char} {q : ℚ} (spells : Numeral.Spells cs q) :
    Reads atom 4 [] cs (.number cs) := by
  intro fuel rest enough closes _
  have read := (gives_number spells closes).map Surface.number
  obtain ⟨c, tail, rfl, digit⟩ := spells.exists_cons
  obtain ⟨fuel, rfl⟩ := Nat.exists_eq_add_of_le' (show 1 ≤ fuel by simp at enough; omega)
  have other : ∀ d : Char, d.isDigit = false → c ≠ d := fun d no => Text.ne_of_isDigit digit no
  -- Calls and intervals are tried first, and neither starts with a digit.
  have letters : c ∉ ['s', 'c'] := by simp [other 's' (by decide), other 'c' (by decide)]
  refine Gives.rule ((misses_call (head_notMem letters _) _).orElse_gives ?_)
  exact (misses_interval (head_ne (other '[' (by decide)) _)).orElse_gives (read.orElse _)

theorem reads_interval {l h cs ds w₁ w₂ w₃ w₄ : List Char}
    (low : ∀ rest, Closes rest → Gives bound (l ++ rest) cs rest)
    (high : ∀ rest, Closes rest → Gives bound (h ++ rest) ds rest)
    (lowBegins : Begins l) (highBegins : Begins h)
    (b₁ : Blank w₁) (b₂ : Blank w₂) (b₃ : Blank w₃) (b₄ : Blank w₄) :
    Reads atom 4 [] ('[' :: (w₁ ++ l ++ w₂ ++ ',' :: (w₃ ++ h ++ w₄ ++ [']']))) (.interval cs ds) := by
  intro fuel rest enough _ _
  have read := gives_interval low high lowBegins highBegins b₁ b₂ b₃ b₄ rest
  obtain ⟨fuel, rfl⟩ := Nat.exists_eq_add_of_le' (show 1 ≤ fuel by simp at enough; omega)
  have split : '[' :: (w₁ ++ l ++ w₂ ++ ',' :: (w₃ ++ h ++ w₄ ++ [']'])) ++ rest =
      '[' :: (w₁ ++ (l ++ (w₂ ++ ',' :: (w₃ ++ (h ++ (w₄ ++ ']' :: rest)))))) := by simp
  rw [split]
  exact ((misses_call (head_notMem (by decide) _) fuel).orElse_gives (read.orElse _)).rule

theorem reads_name {ds : List Char} (digits : Numeral.IsDigits ds) :
    Reads atom 4 [] ('x' :: ds) (.name ('x' :: ds)) := by
  intro fuel rest enough closes _
  have read := (gives_name (show isNameStart 'x' by decide) digits.digits closes).map Surface.name
  obtain ⟨fuel, rfl⟩ := Nat.exists_eq_add_of_le' (show 1 ≤ fuel by simp at enough; omega)
  refine Gives.rule ((misses_call (head_notMem (by decide) _) _).orElse_gives ?_)
  refine (misses_interval (head_ne (by decide) _)).orElse_gives ?_
  exact ((misses_number (head_not (by decide) _)).map _).orElse_gives (read.orElse _)

theorem gives_bracketed {r : Reader Surface} {w₁ w₂ rest : List Char} (b₁ : Blank w₁) (b₂ : Blank w₂)
    (begins : Begins t) (read : Gives r (t ++ (w₂ ++ ')' :: rest)) s (w₂ ++ ')' :: rest)) :
    Gives (bracketed r) ('(' :: (w₁ ++ (t ++ (w₂ ++ ')' :: rest)))) s rest := by
  refine (gives_literal ['('] _).bind ((gives_blanks b₁ (begins.head _)).bind (read.bind ?_))
  exact (gives_blanks b₂ (head_not (by decide) _)).bind ((gives_literal [')'] _).bind (gives_pure _ _))

theorem Reads.before_bracket (reads : Reads r slack bad t s) (good : ')' ∉ bad) {fuel : ℕ}
    (enough : 8 * t.length ≤ fuel + slack) {w : List Char} (blank : Blank w) (rest : List Char) :
    Gives (r fuel) (t ++ (w ++ ')' :: rest)) s (w ++ ')' :: rest) :=
  reads fuel _ enough (closes_append blank (by decide) rest) (next_append blank (by decide) good rest)

theorem reads_group (reads : Reads sum 0 bad t s) (good : ')' ∉ bad) (begins : Begins t)
    {w₁ w₂ : List Char} (b₁ : Blank w₁) (b₂ : Blank w₂) :
    Reads atom 4 [] ('(' :: (w₁ ++ t ++ w₂ ++ [')'])) s := by
  intro fuel rest enough _ _
  simp only [List.length_cons, List.length_append, List.length_nil] at enough
  obtain ⟨fuel, rfl⟩ := Nat.exists_eq_add_of_le' (show 2 ≤ fuel by omega)
  have read : Gives (group (fuel + 1)) ('(' :: (w₁ ++ (t ++ (w₂ ++ ')' :: rest)))) s rest :=
    (gives_bracketed b₁ b₂ begins (reads.before_bracket good (by omega) b₂ rest)).rule
  have split : '(' :: (w₁ ++ t ++ w₂ ++ [')']) ++ rest = '(' :: (w₁ ++ (t ++ (w₂ ++ ')' :: rest))) := by
    simp
  rw [split]
  refine Gives.rule ((misses_call (head_notMem (by decide) _) _).orElse_gives ?_)
  refine (misses_interval (head_ne (by decide) _)).orElse_gives ?_
  refine ((misses_number (head_not (by decide) _)).map _).orElse_gives ?_
  exact ((misses_name (head_not (by decide) _)).map _).orElse_gives (read.orElse _)

theorem gives_function {op : UnOp} (function : op ≠ .neg) (tail : List Char) :
    Gives Reader.function (op.symbol.toList ++ tail) op tail := by
  refine Gives.rule ?_
  cases op with
  | neg => exact absurd rfl function
  | sqrt => exact (gives_sign "sqrt" UnOp.sqrt tail).orElse _
  | cast =>
    have missed : Misses (sign "sqrt" UnOp.sqrt) ("cast".toList ++ tail) :=
      misses_sign rfl _ (head_ne (by decide) _)
    exact missed.orElse_gives ((gives_sign "cast" UnOp.cast tail).orElse _)

theorem reads_call {op : UnOp} (function : op ≠ .neg) (reads : Reads sum 0 bad t s) (good : ')' ∉ bad)
    (begins : Begins t) {w₁ w₂ w₃ : List Char} (b₁ : Blank w₁) (b₂ : Blank w₂) (b₃ : Blank w₃) :
    Reads atom 4 [] (op.symbol.toList ++ w₁ ++ '(' :: (w₂ ++ t ++ w₃ ++ [')'])) (.un op s) := by
  intro fuel rest enough _ _
  simp only [List.length_cons, List.length_append, List.length_nil] at enough
  obtain ⟨fuel, rfl⟩ := Nat.exists_eq_add_of_le' (show 2 ≤ fuel by omega)
  have arg := gives_bracketed b₂ b₃ begins
    (reads.before_bracket good (show _ ≤ fuel + 0 by omega) b₃ rest)
  have read : Gives (call (fuel + 1))
      (op.symbol.toList ++ (w₁ ++ '(' :: (w₂ ++ (t ++ (w₃ ++ ')' :: rest))))) (.un op s) rest := by
    refine Gives.rule ((gives_function function _).bind ?_)
    refine (gives_blanks b₁ (head_not (by decide) _)).bind ?_
    exact arg.bind (gives_pure _ _)
  have split : op.symbol.toList ++ w₁ ++ '(' :: (w₂ ++ t ++ w₃ ++ [')']) ++ rest =
      op.symbol.toList ++ (w₁ ++ '(' :: (w₂ ++ (t ++ (w₃ ++ ')' :: rest)))) := by simp
  rw [split]
  exact (read.orElse _).rule

/-! ## Powers and negations -/

theorem misses_negation {cs : List Char} (other : ∀ c ∈ cs.head?, c ≠ '-') (fuel : ℕ) :
    Misses (negation fuel) cs := by
  cases fuel with
  | zero => exact misses_fail cs
  | succ fuel => exact (misses_literal [] other).bind.rule

theorem reads_signed (reads : Reads atom 4 [] t s) {c : Char} {tail : List Char} (first : t = c :: tail)
    (other : c ≠ '-') : Reads signed 2 ['^'] t s := by
  intro fuel rest enough closes next
  obtain ⟨fuel, rfl⟩ := Nat.exists_eq_add_of_le' (show 2 ≤ fuel by simp [first] at enough; omega)
  have base := reads fuel rest (by omega) closes (next.mono (by simp))
  -- A caret behind the piece would be taken for an exponent.
  have noExponent : Misses (operand (sign "^" .pow) (signed fuel)) rest :=
    misses_operand (misses_pow next)
  have read : Gives (power (fuel + 1)) (t ++ rest) s rest := by
    refine Gives.rule (base.bind ?_)
    exact (gives_optional_none fun _ => noExponent).bind (gives_pure _ _)
  subst first
  exact ((misses_negation (head_ne other _) _).orElse_gives read).rule

theorem reads_pow (base : Reads atom 4 [] t s) (exponent : Reads signed 2 ['^'] t' s') {c : Char}
    {tail : List Char} (first : t = c :: tail) (other : c ≠ '-') (begins : Begins t')
    {w₁ w₂ : List Char} (s₁ : Spaced w₁) (s₂ : Spaced w₂) :
    Reads signed 2 ['^'] (t ++ w₁ ++ '^' :: (w₂ ++ t')) (.bin .pow s s') := by
  intro fuel rest enough closes next
  simp only [List.length_append, List.length_cons] at enough
  obtain ⟨fuel, rfl⟩ := Nat.exists_eq_add_of_le' (show 2 ≤ fuel by omega)
  have split : t ++ w₁ ++ '^' :: (w₂ ++ t') ++ rest = t ++ (w₁ ++ '^' :: (w₂ ++ (t' ++ rest))) := by
    simp
  rw [split]
  have baseRead := base fuel (w₁ ++ '^' :: (w₂ ++ (t' ++ rest))) (by omega) (s₁.closes _)
    (next_append s₁.blank (by decide) (by simp) _)
  have caret : ∀ tail, Gives (sign "^" BinOp.pow) ('^' :: tail) .pow tail := gives_sign "^" BinOp.pow
  have raised := gives_operand s₁.blank s₂.blank (by decide) caret begins
    (exponent fuel rest (by omega) closes next)
  have read : Gives (power (fuel + 1)) (t ++ (w₁ ++ '^' :: (w₂ ++ (t' ++ rest)))) (.bin .pow s s')
      rest := by
    refine Gives.rule (baseRead.bind ?_)
    exact (gives_optional_some (by simp) raised).bind (gives_pure _ _)
  subst first
  exact ((misses_negation (head_ne other _) _).orElse_gives read).rule

theorem reads_neg (reads : Reads signed 2 ['^'] t s) (begins : Begins t) {w : List Char}
    (blank : Blank w) : Reads signed 2 ['^'] ('-' :: (w ++ t)) (.un .neg s) := by
  intro fuel rest enough closes next
  simp only [List.length_cons, List.length_append] at enough
  obtain ⟨fuel, rfl⟩ := Nat.exists_eq_add_of_le' (show 2 ≤ fuel by omega)
  have arg := reads fuel rest (by omega) closes next
  rw [List.cons_append, List.append_assoc]
  have read : Gives (negation (fuel + 1)) ('-' :: (w ++ (t ++ rest))) (.un .neg s) rest := by
    refine Gives.rule ((gives_literal ['-'] _).bind ?_)
    exact (gives_blanks blank (begins.head rest)).bind (arg.bind (gives_pure _ _))
  exact (read.orElse _).rule

/-! ## Whole terms -/

theorem resolve_numbered {ds : List Char} (digits : Numeral.IsDigits ds) :
    Names.resolve .numbered ('x' :: ds) = .ok (Numeral.natural ds) := by
  have values : ds.filterMap Text.digitValue? = ds.map (·.toNat - 48) := by
    rw [← List.filterMap_eq_map]
    exact List.filterMap_congr fun c hc => Text.digitValue?_of_isDigit (digits.digits c hc)
  have accepted : ds ≠ [] ∧ ds.all isAsciiDigit := ⟨digits.nonempty, List.all_eq_true.mpr digits.digits⟩
  rw [Names.resolve, if_pos accepted, values, Numeral.valueOf_map]

theorem boundOf_of_ofText? {cs : List Char} {b : Bound}
    (text : Bound.ofText? (String.ofList cs) = some b) : boundOf cs = .ok b := by
  rw [boundOf, Bound.ofText, text]
  rfl

theorem toTerm_un {op : UnOp} {e : Term} (term : s.toTerm .numbered = .ok e) :
    (Surface.un op s).toTerm .numbered = .ok (.un op e) := by
  rw [Surface.toTerm, term]
  rfl

theorem toTerm_bin {op : BinOp} {e e' : Term} (term : s.toTerm .numbered = .ok e)
    (term' : s'.toTerm .numbered = .ok e') :
    (Surface.bin op s s').toTerm .numbered = .ok (.bin op e e') := by
  rw [Surface.toTerm, term, ok_bind, term']
  rfl

/-- What can be said of a text of some rank when it is read as a surface form. -/
def Rank.Reads : Rank → List Char → Surface → Prop
  | .atom => Formula.Reads Reader.atom 4 []
  | .signed => Formula.Reads Reader.signed 2 ['^']
  -- The readers of chains loop where the texts nest to the left, so these two stay open at the end.
  | .product => Continues Reader.signed 2 ['^'] mulSign
  | .sum => Continues Reader.product 1 ['^', '*', '/', '%'] addSign

theorem reads_product (chained : Rank.Reads .product t s) (nonempty : t ≠ []) :
    Reads product 1 ['^', '*', '/', '%'] t s :=
  Continues.reads chained nonempty (by decide) (fun _ => rfl) (by simp) fun _ next =>
    misses_mulSign next

theorem reads_sum (chained : Rank.Reads .sum t s) (nonempty : t ≠ []) :
    Reads sum 0 ['^', '*', '/', '%', '+', '-'] t s :=
  Continues.reads chained nonempty (by decide) (fun _ => rfl) (by simp) fun _ next =>
    misses_addSign next

theorem Writes.exists_surface {rank : Rank} {e : Term} {t : List Char} (writes : Writes rank e t) :
    ∃ s, s.toTerm .numbered = .ok e ∧ rank.Reads t s := by
  -- One case for each way to write; a chain is closed where a bracket or a looser operator needs it.
  induction writes with
  | @point cs q spells =>
    refine ⟨.number cs, ?_, reads_number spells⟩
    simp [Surface.toTerm, numberOf, Numeral.read?_of_spells spells]
  | interval low high b₁ b₂ b₃ b₄ =>
    obtain ⟨cs, lowText, lowRead⟩ := low.exists_gives
    obtain ⟨ds, highText, highRead⟩ := high.exists_gives
    refine ⟨.interval cs ds, ?_, reads_interval lowRead highRead low.begins high.begins b₁ b₂ b₃ b₄⟩
    simp [Surface.toTerm, boundOf_of_ofText? lowText, boundOf_of_ofText? highText]
  | @var ds digits =>
    refine ⟨.name ('x' :: ds), ?_, reads_name digits⟩
    rw [Surface.toTerm, resolve_numbered digits]
    rfl
  | @call op e t w₁ w₂ w₃ function arg b₁ b₂ b₃ ih =>
    obtain ⟨s, term, chained⟩ := ih
    exact ⟨.un op s, toTerm_un term,
      reads_call function (reads_sum chained arg.ne_nil) (by decide) arg.begins b₁ b₂ b₃⟩
  | group arg b₁ b₂ ih =>
    obtain ⟨s, term, chained⟩ := ih
    exact ⟨s, term, reads_group (reads_sum chained arg.ne_nil) (by decide) arg.begins b₁ b₂⟩
  | ofAtom piece ih =>
    obtain ⟨s, term, reads⟩ := ih
    obtain ⟨c, tail, split, -, other⟩ := piece.exists_cons
    exact ⟨s, term, reads_signed reads split (other rfl)⟩
  | pow base exponent s₁ s₂ ih ih' =>
    obtain ⟨s, term, reads⟩ := ih
    obtain ⟨s', term', reads'⟩ := ih'
    obtain ⟨c, tail, split, -, other⟩ := base.exists_cons
    exact ⟨.bin .pow s s', toTerm_bin term term',
      reads_pow reads reads' split (other rfl) exponent.begins s₁ s₂⟩
  | neg arg b ih =>
    obtain ⟨s, term, reads⟩ := ih
    exact ⟨.un .neg s, toTerm_un term, reads_neg reads arg.begins b⟩
  | ofSigned _ ih =>
    obtain ⟨s, term, reads⟩ := ih
    exact ⟨s, term, Reads.continues reads⟩
  | mul kind left right s₁ s₂ ih ih' =>
    obtain ⟨s, term, chained⟩ := ih
    obtain ⟨s', term', reads⟩ := ih'
    refine ⟨.bin _ s s', toTerm_bin term term', ?_⟩
    exact Continues.append chained reads right.begins (gives_mulSign kind) (mark_of_mul kind) s₁ s₂
  | ofProduct only ih =>
    obtain ⟨s, term, chained⟩ := ih
    exact ⟨s, term, Reads.continues (reads_product chained only.ne_nil)⟩
  | add kind left right s₁ s₂ ih ih' =>
    obtain ⟨s, term, chained⟩ := ih
    obtain ⟨s', term', chained'⟩ := ih'
    refine ⟨.bin _ s s', toTerm_bin term term', ?_⟩
    exact Continues.append chained (reads_product chained' right.ne_nil) right.begins
      (gives_addSign kind) (mark_of_add kind) s₁ s₂

theorem exists_writesBound (b : Bound) : ∃ t, WritesBound t b := by
  have spelled : ∀ {sign cs : List Char} {size b : Bound}, Bound.Sign sign size b → Bound.Size cs size →
      ∃ t, WritesBound t b := by
    intro sign cs size b signed spells
    cases signed with
    | none => exact ⟨cs, .unsigned spells⟩
    | plus => exact ⟨'+' :: ([] ++ cs), .signed (.plus _) (by simp [Blank]) spells⟩
    | minus => exact ⟨'-' :: ([] ++ cs), .signed (.minus _) (by simp [Blank]) spells⟩
  cases b with
  | negInf => exact spelled (.minus .posInf) .inf
  | posInf => exact spelled (.none .posInf) .inf
  | fin q =>
    obtain ⟨sign, cs, size, signed, spells, -⟩ := Bound.exists_sign_size q
    exact spelled signed spells

/-- Every term has a text of one piece: brackets around everything but constants, variables and
calls. -/
theorem exists_writes (e : Term) : ∃ t, Writes .atom e t := by
  have blank : Blank [] := by simp [Blank]
  have space : Spaced [' '] := ⟨by simp, by decide⟩
  induction e with
  | const I =>
    obtain ⟨l, low⟩ := exists_writesBound I.lo
    obtain ⟨h, high⟩ := exists_writesBound I.hi
    exact ⟨_, .interval low high blank blank blank blank⟩
  | var d =>
    have text := Writes.var (Numeral.isDigits_toDigits d)
    rw [Numeral.natural, Nat.ofDigitChars_ten_toDigits] at text
    exact ⟨_, text⟩
  | un op arg ih =>
    obtain ⟨t, text⟩ := ih
    by_cases negation : op = .neg
    · subst negation
      exact ⟨_, .group (.ofProduct (.ofSigned (.neg (.ofAtom text) blank))) blank blank⟩
    · exact ⟨_, .call negation (.ofProduct (.ofSigned (.ofAtom text))) blank blank blank⟩
  | bin op left right ih ih' =>
    obtain ⟨t, text⟩ := ih
    obtain ⟨t', text'⟩ := ih'
    have product := Writes.ofSigned (.ofAtom text)
    have kinds : op ∈ [.add, .sub] ∨ op ∈ [.mul, .div, .rem] ∨ op = .pow := by cases op <;> decide
    -- Each kind of operator is written at its own rank, and brackets make an atom of it.
    rcases kinds with kind | kind | rfl
    · have whole := Writes.add kind (.ofProduct product) (.ofSigned (.ofAtom text')) space space
      exact ⟨_, .group whole blank blank⟩
    · have whole := Writes.mul kind product (.ofAtom text') space space
      exact ⟨_, .group (.ofProduct whole) blank blank⟩
    · have whole := Writes.pow text (.ofAtom text') space space
      exact ⟨_, .group (.ofProduct (.ofSigned whole)) blank blank⟩

theorem gives_reader {w w' : List Char} (reads : Reads sum 0 bad t s) (begins : Begins t)
    (before : Blank w) (after : Blank w') {fuel : ℕ} (enough : 8 * t.length ≤ fuel) :
    Gives (Surface.reader fuel) (w ++ t ++ w') s [] := by
  rw [List.append_assoc]
  refine Gives.rule ((gives_blanks before (begins.head w')).bind ?_)
  refine (reads fuel w' enough (closes_of_blank after) (next_of_blank after bad)).bind ?_
  exact (gives_blanks_end after).bind (gives_pure _ _)

theorem readAll_of_gives {α : Type} {reader : ℕ → Reader α} {cs : List Char} {a : α}
    (read : Gives (reader (8 * (cs.length + 1))) cs a []) :
    readAll reader (String.ofList cs) = .ok a := by
  obtain ⟨least, read⟩ := read cs.length
  rw [readAll, String.toList_ofList, read]

/-- **Parsing undoes printing.** Every term has a text, and each text of it, with white space around it
or not, is read as exactly that term. -/
theorem parseTerm_of_writes (e : Term) : (∃ t, Writes .sum e t) ∧
    ∀ t w w', Writes .sum e t → Blank w → Blank w' →
      parseTerm none (String.ofList (w ++ t ++ w')) = .ok e := by
  constructor
  · obtain ⟨t, text⟩ := exists_writes e
    exact ⟨t, .ofProduct (.ofSigned (.ofAtom text))⟩
  · intro t w w' writes before after
    obtain ⟨s, term, chained⟩ := writes.exists_surface
    have read := gives_reader (reads_sum chained writes.ne_nil) writes.begins before after
      (show 8 * t.length ≤ 8 * ((w ++ t ++ w').length + 1) by simp only [List.length_append]; omega)
    rw [parseTerm, readAll_of_gives read]
    exact term

/-- A quotient's remainder with a negated power, an unbounded interval and a function in it. -/
def mixedSample : Term :=
  .bin .rem (.bin .mul (.un .neg (.bin .pow (.var 0) (.un .neg (.const (.point 2)))))
      (.bin .add (.var 1) (.const ⟨.fin (-(1 / 2)), .posInf⟩)))
    (.un .sqrt (.const (.point (3 / 4))))

/-- A text of the sample with brackets only where they are needed. -/
def mixedText : List Char := "-x0 ^ - 2 * ( x1 + [ - 1/2 , +oo ] ) % sqrt (3/4)".toList

theorem mixedSample_writes : Writes .sum mixedSample mixedText := by
  have blank : Blank [] := by simp [Blank]
  have space : Blank [' '] := by decide
  have spaced : Spaced [' '] := ⟨by simp, space⟩
  have digit : ∀ c ∈ ['0', '1', '2', '3', '4'], Numeral.IsDigits [c] := by
    have digits : ∀ c ∈ ['0', '1', '2', '3', '4'], c.isDigit := by simp
    exact fun c hc => ⟨by simp, by simpa using digits c hc⟩
  have zero := Writes.var (digit '0' (by decide))
  have one := Writes.var (digit '1' (by decide))
  have two := Writes.point (.whole (digit '2' (by decide)))
  have half := Numeral.Spells.ratio (digit '1' (by decide)) (digit '2' (by decide)) (by decide)
  have quarters := Numeral.Spells.ratio (digit '3' (by decide)) (digit '4' (by decide)) (by decide)
  have interval : Writes .atom (.const ⟨.fin (-(1 / 2)), .posInf⟩) "[ - 1/2 , +oo ]".toList :=
    .interval (.signed (.minus _) space (.number half)) (.signed (.plus _) blank .oo) space space
      space space
  have power : Writes .signed (.bin .pow (.var 0) (.un .neg (.const (.point 2)))) "x0 ^ - 2".toList :=
    .pow zero (.neg (.ofAtom two) space) spaced spaced
  have sum : Writes .sum (.bin .add (.var 1) (.const ⟨.fin (-(1 / 2)), .posInf⟩))
      "x1 + [ - 1/2 , +oo ]".toList :=
    .add (by decide) (.ofProduct (.ofSigned (.ofAtom one))) (.ofSigned (.ofAtom interval)) spaced spaced
  have root : Writes .atom (.un .sqrt (.const (.point (3 / 4)))) "sqrt (3/4)".toList :=
    .call (by decide) (.ofProduct (.ofSigned (.ofAtom (.point quarters)))) space blank blank
  exact .ofProduct (.mul (by decide) (.mul (by decide) (.ofSigned (.neg power blank))
    (.ofAtom (.group sum space space)) spaced spaced) (.ofAtom root) spaced spaced)

theorem parseTerm_mixedSample :
    Writes .sum mixedSample mixedText ∧ Blank [' ', ' '] ∧ Blank ['\n'] ∧
      parseTerm none (String.ofList ([' ', ' '] ++ mixedText ++ ['\n'])) = .ok mixedSample := by
  have space : Blank [' ', ' '] := by decide
  have line : Blank ['\n'] := by decide
  exact ⟨mixedSample_writes, space, line,
    (parseTerm_of_writes mixedSample).2 mixedText [' ', ' '] ['\n'] mixedSample_writes space line⟩

end SkewBox.Formula
