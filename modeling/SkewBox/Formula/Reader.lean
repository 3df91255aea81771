import SkewBox.Text.Blank

/-!
# Readers

A reader takes characters from the front of a text and gives a result, or fails.
Choice is ordered and a reader never revises a choice once made.  Along the way the
place of the furthest failure of a rule is kept, as the fewest characters that were
left when a rule failed.  A run of digits may be of any length, since no `Limits` apply to formulas.

* `Reader`: the type, with its monad structure.
* `Reader.orElse`, `Reader.many`, `Reader.optional`: ordered choice and repetition.
* `Reader.rule`: marks a reader whose failures count.
-/

namespace SkewBox.Formula

/-- Takes the text and the fewest characters left at a failed rule so far; gives the result with
the rest of the text, or nothing, and the updated count. -/
def Reader (α : Type) : Type := List Char → Nat → Option (α × List Char) × Nat

namespace Reader

variable {α β : Type}

instance : Monad Reader where
  pure a := fun cs least => (some (a, cs), least)
  bind r f := fun cs least =>
    match r cs least with
    | (some (a, rest), least) => f a rest least
    | (none, least) => (none, least)

def fail : Reader α := fun _ least => (none, least)

/-- Counts a failure of `r` as the failure of a rule at the place where `r` started. -/
def rule (r : Reader α) : Reader α := fun cs least =>
  match r cs least with
  | (none, least) => (none, min least cs.length)
  | found => found

def orElse (r s : Reader α) : Reader α := fun cs least =>
  match r cs least with
  | (none, least) => s cs least
  | found => found

def firstOf : List (Reader α) → Reader α
  | [] => fail
  | r :: rs => orElse r (firstOf rs)

/-- `r` if it succeeds, else nothing is taken.  At the end of the text `r` is not tried. -/
def optional (r : Reader α) : Reader (Option α) := fun cs least =>
  match cs with
  | [] => (some (none, []), least)
  | _ => orElse (some <$> r) (pure none) cs least

/-- As many results of `r` as there are, up to a given number.  At the end of the text `r` is
not tried. -/
def many (r : Reader α) : Nat → Reader (List α)
  | 0 => pure []
  | n + 1 => do
    match ← optional r with
    | none => pure []
    | some a => return a :: (← many r n)

def literal (text : List Char) : Reader Unit := fun cs least =>
  match text.isPrefixOf? cs with
  | some rest => (some ((), rest), least)
  | none => (none, least)

/-- The longest run of characters with the property `p`, perhaps none. -/
def run (p : Char → Bool) : Reader (List Char) := fun cs least =>
  (some (cs.takeWhile p, cs.dropWhile p), least)

def run1 (p : Char → Bool) : Reader (List Char) := do
  match ← run p with
  | [] => fail
  | found => pure found

def blanks : Reader Unit := do
  let _ ← run Text.isSpace
  pure ()

end Reader

end SkewBox.Formula
