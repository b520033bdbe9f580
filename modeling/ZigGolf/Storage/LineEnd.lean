import ZigGolf.Bytes.Basic
import ZigGolf.Bytes.Iteration

/-!
# Line ends

Input may end its lines with a carriage return and a line feed.  Reading drops the carriage return
of every such pair; any other carriage return is a blank and stays.
-/

namespace ZigGolf

/-- Splits one byte, or one line end of two bytes as a line feed, off a text. -/
def lineEndStep : Bytes → Option (UInt8 × Bytes)
  | [] => none
  | b :: rest =>
    if b = carriageReturn ∧ rest.head? = some lineFeed then some (lineFeed, rest.tail)
    else some (b, rest)

/-- A line end of two bytes is shorter by one, and any other byte is split off alone. -/
theorem lineEndStep_shrinks {s rest : Bytes} {b : UInt8} (h : lineEndStep s = some (b, rest)) :
    rest.length < s.length := by
  unfold lineEndStep at h
  split at h
  · simp at h
  · split at h
    · obtain ⟨_, rfl⟩ := Prod.mk.inj (Option.some.inj h)
      exact Nat.lt_succ_of_le (List.tail_sublist _).length_le
    · obtain ⟨_, rfl⟩ := Prod.mk.inj (Option.some.inj h)
      exact Nat.lt_succ_self _

/-- Drops every carriage return directly before a line feed. -/
def normalizeLineEnds (s : Bytes) : Bytes :=
  (unroll List.length lineEndStep lineEndStep_shrinks s).1

@[simp] theorem normalizeLineEnds_nil : normalizeLineEnds [] = [] := by
  rw [normalizeLineEnds, unroll_of_none _ _ _ rfl]

/-- A line end of two bytes becomes a line feed. -/
@[simp] theorem normalizeLineEnds_pair (s : Bytes) :
    normalizeLineEnds (carriageReturn :: lineFeed :: s) = lineFeed :: normalizeLineEnds s := by
  have hstep : lineEndStep (carriageReturn :: lineFeed :: s) = some (lineFeed, s) := rfl
  rw [normalizeLineEnds, unroll_of_some _ _ _ hstep]
  rfl

/-- A byte that starts no line end of two bytes stays. -/
theorem normalizeLineEnds_cons {b : UInt8} {s : Bytes}
    (h : ¬(b = carriageReturn ∧ s.head? = some lineFeed)) :
    normalizeLineEnds (b :: s) = b :: normalizeLineEnds s := by
  have hstep : lineEndStep (b :: s) = some (b, s) := if_neg h
  rw [normalizeLineEnds, unroll_of_some _ _ _ hstep]
  rfl

end ZigGolf
