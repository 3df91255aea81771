import SkewBox.Payload
import SkewBox.Proofs.Points

/-!
# Payloads in shape

Whatever bytes are read, the value that they give is well-formed: its rows were checked to be
independent, and a row with an empty range gives the empty set.

* `Payload.assemble_wellFormed`: the value of given rows.
* `Payload.decode_wellFormed`: the value of a byte string.
-/

namespace SkewBox.Payload

variable {limits : Limits} {a : Parallelotope}

/-- Rows that pass the checks are independent, and the value is theirs unless a range is empty. -/
theorem exists_of_assemble {s : Space} {axes : List (List Bound)} {ranges : List Interval}
    (h : assemble s axes ranges = .ok a) : ∃ axes' : Mat, axes'.Regular s.size ∧
      ranges.length = s.size ∧
      a = if ranges.any (·.isBottom) then .bottom s else ⟨s, some ⟨axes', ranges, none⟩⟩ := by
  unfold assemble at h
  split at h
  · contradiction
  rename_i axes' _
  dsimp only at h
  split at h
  · contradiction
  rename_i square
  obtain ⟨length, lengths, widths⟩ : axes'.length = s.size ∧ ranges.length = s.size ∧
      ∀ row ∈ axes', row.length = s.size := by simpa using square
  obtain ⟨invertible, found, rest⟩ := bind_eq_ok.mp h
  split at rest
  · contradiction
  rename_i independent
  obtain rfl : invertible = true := by simpa using independent
  exact ⟨axes', Mat.regular_of_isInvertible ⟨length, widths⟩ found, lengths,
    (Except.ok.inj rest).symm⟩

theorem assemble_wellFormed {s : Space} {axes : List (List Bound)} {ranges : List Interval}
    (h : assemble s axes ranges = .ok a) : a.WellFormed := by
  obtain ⟨axes', regular, lengths, rfl⟩ := exists_of_assemble h
  split
  · exact Parallelotope.shaped_bottom s
  · rename_i nonempty
    refine Parallelotope.shaped_mk (Frame.regular_mk regular lengths) fun _ I hI => ?_
    have notBottom : ∀ I ∈ ranges, I.isBottom = false := by simpa using nonempty
    exact Interval.isBottom_eq_false_iff.mp (notBottom I hI)

/-- A value is read from a record: it is empty, or is put together from rows.  What other fields hold
does not matter, since the rows are checked when they are put together. -/
theorem exists_of_valueOf {d : Datum} (h : valueOf limits d = .ok a) :
    ∃ fields s, d = .record fields ∧ space limits fields = .ok s ∧
      (a = .bottom s ∨ ∃ axes ranges, assemble s axes ranges = .ok a) := by
  unfold valueOf at h
  split at h
  · rename_i fields
    dsimp only at h
    -- Another version is refused before anything else is read.
    split at h
    · contradiction
    obtain ⟨s, found, h⟩ := bind_eq_ok.mp h
    refine ⟨fields, s, rfl, found, ?_⟩
    obtain ⟨bottom, -, h⟩ := bind_eq_ok.mp h
    split at h
    · exact .inl (Except.ok.inj h).symm
    · obtain ⟨basis, -, h⟩ := bind_eq_ok.mp h
      obtain ⟨rows, -, h⟩ := bind_eq_ok.mp h
      obtain ⟨axes, -, h⟩ := bind_eq_ok.mp h
      obtain ⟨bounds, -, h⟩ := bind_eq_ok.mp h
      obtain ⟨items, -, h⟩ := bind_eq_ok.mp h
      obtain ⟨ranges, -, h⟩ := bind_eq_ok.mp h
      exact .inr ⟨axes, ranges, h⟩
  · contradiction

theorem valueOf_wellFormed {d : Datum} (h : valueOf limits d = .ok a) : a.WellFormed := by
  obtain ⟨fields, s, -, -, rfl | ⟨axes, ranges, assembled⟩⟩ := exists_of_valueOf h
  · exact Parallelotope.shaped_bottom s
  · exact assemble_wellFormed assembled

theorem exists_of_decode {bytes : List UInt8} {used : ℕ} (h : decode limits bytes = .ok (a, used)) :
    ∃ d, valueOf limits d = .ok a := by
  unfold decode at h
  dsimp only at h
  split at h
  · contradiction
  split at h
  · contradiction
  split at h
  · contradiction
  obtain ⟨text, -, h⟩ := bind_eq_ok.mp h
  obtain ⟨d, -, h⟩ := bind_eq_ok.mp h
  obtain ⟨b, read, same⟩ := bind_eq_ok.mp h
  obtain rfl : b = a := congrArg Prod.fst (Except.ok.inj same)
  exact ⟨d, read⟩

theorem decode_wellFormed {bytes : List UInt8} {used : ℕ} (h : decode limits bytes = .ok (a, used)) :
    a.WellFormed :=
  (exists_of_decode h).elim fun _ => valueOf_wellFormed

end SkewBox.Payload
