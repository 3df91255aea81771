/-!
# Entries in order

Lists of keys with values that keep the order in which keys first came.

* `Entries.put`: sets the value of a key.
* `Entries.collect`: one value for each key.
-/

namespace SkewBox.Entries

variable {α β : Type} [DecidableEq α]

/-- The entries with the value of `key` set: in its place, or at the end. -/
def put (entries : List (α × β)) (key : α) (value : β) : List (α × β) :=
  match entries with
  | [] => [(key, value)]
  | (key', value') :: rest =>
    if key' = key then (key, value) :: rest else (key', value') :: put rest key value

theorem mem_keys_put {entries : List (α × β)} {key k : α} {value : β} :
    k ∈ (put entries key value).map (·.1) ↔ k = key ∨ k ∈ entries.map (·.1) := by
  induction entries with
  | nil => simp [put]
  | cons entry rest ih =>
    by_cases h : entry.1 = key
    · simp only [put, h, if_true, List.map_cons, List.mem_cons]
      grind
    · simp only [put, h, if_false, List.map_cons, List.mem_cons, ih]
      grind

theorem nodup_keys_put {entries : List (α × β)} (key : α) (value : β)
    (distinct : (entries.map (·.1)).Nodup) : ((put entries key value).map (·.1)).Nodup := by
  induction entries with
  | nil => simp [put]
  | cons entry rest ih =>
    obtain ⟨fresh, distinct⟩ := List.nodup_cons.mp distinct
    by_cases h : entry.1 = key
    · simp only [put, h, if_true, List.map_cons, List.nodup_cons]
      exact ⟨h ▸ fresh, distinct⟩
    · simp only [put, h, if_false, List.map_cons, List.nodup_cons, mem_keys_put, not_or]
      exact ⟨⟨not_false, fresh⟩, ih distinct⟩

/-- The entries with one value for each key: the last one, where the key first came. -/
def collect (entries : List (α × β)) : List (α × β) :=
  entries.foldl (fun acc (key, value) => put acc key value) []

theorem nodup_keys_collect (entries : List (α × β)) : ((collect entries).map (·.1)).Nodup := by
  suffices general : ∀ acc : List (α × β), (acc.map (·.1)).Nodup →
      ((entries.foldl (fun acc (key, value) => put acc key value) acc).map (·.1)).Nodup from
    general [] List.nodup_nil
  induction entries with
  | nil => exact fun _ distinct => distinct
  | cons entry rest ih => exact fun acc distinct => ih _ (nodup_keys_put _ _ distinct)

end SkewBox.Entries
