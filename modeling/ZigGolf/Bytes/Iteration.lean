/-!
# Collecting along a text

Two ways to walk a text and list what is met: `unroll` repeats a step that consumes some of the
input until the step stops, and `thread` carries a state through a list.  Both run in constant
stack however long the input is.  The equations below are all that a proof needs of them: they
read as plain recursion on the input.
-/

namespace ZigGolf

universe u v w

section Unroll

variable {σ : Type u} {α : Type v}

/-- The loop of `unroll`, with what has been yielded so far. -/
@[specialize] def unrollFrom (size : σ → Nat) (step : σ → Option (α × σ))
    (shrinks : ∀ {s a t}, step s = some (a, t) → size t < size s) (yielded : Array α) (s : σ) :
    List α × σ :=
  match _h : step s with
  | none => (yielded.toList, s)
  | some (a, t) => unrollFrom size step shrinks (yielded.push a) t
termination_by size s
decreasing_by exact shrinks _h

/-- Repeats `step` from `s` until it stops: what the steps yield, in order, and the state in which
no further step is possible.  Every step has to make the state smaller. -/
@[specialize] def unroll (size : σ → Nat) (step : σ → Option (α × σ))
    (shrinks : ∀ {s a t}, step s = some (a, t) → size t < size s) (s : σ) : List α × σ :=
  unrollFrom size step shrinks #[] s

variable (size : σ → Nat) (step : σ → Option (α × σ))
variable (shrinks : ∀ {s a t}, step s = some (a, t) → size t < size s)

/-- What was yielded before the loop stands in front of what the loop yields. -/
theorem unrollFrom_eq (yielded : Array α) (s : σ) :
    unrollFrom size step shrinks yielded s =
      (yielded.toList ++ (unroll size step shrinks s).1, (unroll size step shrinks s).2) := by
  induction h : size s using Nat.strongRecOn generalizing yielded s with
  | _ n ih =>
    unfold unroll
    rw [unrollFrom.eq_def, unrollFrom.eq_def size step shrinks #[] s]
    split
    · simp
    · next a t hs =>
      -- both loops go on from the same smaller state
      have hlt : size t < n := h ▸ shrinks hs
      rw [ih _ hlt _ t rfl, ih _ hlt (#[].push a) t rfl]
      simp

/-- Where no step is possible nothing is yielded. -/
theorem unroll_of_none {s : σ} (h : step s = none) : unroll size step shrinks s = ([], s) := by
  unfold unroll
  rw [unrollFrom.eq_def]
  split
  · rfl
  · next hs => simp [h] at hs

/-- A possible step yields first. -/
theorem unroll_of_some {s t : σ} {a : α} (h : step s = some (a, t)) :
    unroll size step shrinks s =
      (a :: (unroll size step shrinks t).1, (unroll size step shrinks t).2) := by
  conv => lhs; unfold unroll
  rw [unrollFrom.eq_def]
  split
  · next hs => simp [h] at hs
  · next hs =>
    rw [h] at hs
    obtain ⟨rfl, rfl⟩ := Prod.mk.inj (Option.some.inj hs)
    rw [unrollFrom_eq]
    simp

/-- The loop ends where no step is possible. -/
theorem step_unroll (s : σ) : step (unroll size step shrinks s).2 = none := by
  induction h : size s using Nat.strongRecOn generalizing s with
  | _ n ih =>
    cases hs : step s with
    | none => rw [unroll_of_none _ _ _ hs, hs]
    | some p =>
      obtain ⟨a, t⟩ := p
      rw [unroll_of_some _ _ _ hs]
      exact ih (size t) (h ▸ shrinks hs) t rfl

/-- If every step splits a part off the front of a list, the parts and what is left make up the
list. -/
theorem unroll_flatten_append {γ : Type u} (split : List γ → Option (List γ × List γ))
    (shorter : ∀ {s t rest}, split s = some (t, rest) → rest.length < s.length)
    (splits : ∀ {s t rest}, split s = some (t, rest) → t ++ rest = s) (s : List γ) :
    (unroll List.length split shorter s).1.flatten ++ (unroll List.length split shorter s).2
      = s := by
  induction h : s.length using Nat.strongRecOn generalizing s with
  | _ n ih =>
    cases hs : split s with
    | none => simp [unroll_of_none _ _ shorter hs]
    | some p =>
      obtain ⟨t, rest⟩ := p
      have hrest := ih rest.length (h ▸ shorter hs) rest rfl
      rw [unroll_of_some _ _ shorter hs, List.flatten_cons, List.append_assoc, hrest, splits hs]

end Unroll

section Thread

variable {α : Type u} {β : Type v} {σ : Type w}

/-- The walk of `thread`, with what has been yielded so far. -/
@[specialize] def threadFrom (f : σ → α → β × σ) (yielded : Array β) (s : σ) :
    List α → List β × σ
  | [] => (yielded.toList, s)
  | a :: xs =>
    let next := f s a
    threadFrom f (yielded.push next.1) next.2 xs

/-- Carries a state through a list: what each element yields, in order, and the last state. -/
@[specialize] def thread (f : σ → α → β × σ) (s : σ) (xs : List α) : List β × σ :=
  threadFrom f #[] s xs

/-- What was yielded before the walk stands in front of what the walk yields. -/
theorem threadFrom_eq (f : σ → α → β × σ) (yielded : Array β) (s : σ) (xs : List α) :
    threadFrom f yielded s xs =
      (yielded.toList ++ (thread f s xs).1, (thread f s xs).2) := by
  induction xs generalizing yielded s with
  | nil => simp [thread, threadFrom]
  | cons a xs ih =>
    unfold thread
    simp only [threadFrom]
    rw [ih, ih (#[].push _)]
    simp

@[simp] theorem thread_nil (f : σ → α → β × σ) (s : σ) : thread f s [] = ([], s) := rfl

@[simp] theorem thread_cons (f : σ → α → β × σ) (s : σ) (a : α) (xs : List α) :
    thread f s (a :: xs) =
      ((f s a).1 :: (thread f (f s a).2 xs).1, (thread f (f s a).2 xs).2) := by
  conv => lhs; simp only [thread, threadFrom]
  rw [threadFrom_eq]
  simp

/-- A walk over a joined list goes on where the walk over the first part ends. -/
theorem thread_append (f : σ → α → β × σ) (s : σ) (xs ys : List α) :
    thread f s (xs ++ ys) =
      ((thread f s xs).1 ++ (thread f (thread f s xs).2 ys).1,
        (thread f (thread f s xs).2 ys).2) := by
  induction xs generalizing s with
  | nil => simp
  | cons a xs ih => simp [ih]

/-- There is one result for each element. -/
theorem length_thread (f : σ → α → β × σ) (s : σ) (xs : List α) :
    (thread f s xs).1.length = xs.length := by
  induction xs generalizing s with
  | nil => rfl
  | cons a xs ih => rw [thread_cons, List.length_cons, List.length_cons, ih]

/-- A list around one of its elements. -/
theorem eq_take_append_cons_drop {xs : List α} {i : Nat} {a : α} (h : xs[i]? = some a) :
    xs = xs.take i ++ a :: xs.drop (i + 1) := by
  obtain ⟨hi, rfl⟩ := List.getElem?_eq_some_iff.1 h
  rw [← List.drop_eq_getElem_cons hi, List.take_append_drop]

/-- What an element of a list yields is found in the state behind the elements before it. -/
theorem getElem?_thread (f : σ → α → β × σ) (s : σ) {xs : List α} {i : Nat} {a : α}
    (h : xs[i]? = some a) :
    (thread f s xs).1[i]? = some (f (thread f s (xs.take i)).2 a).1 ∧
      (thread f s xs).2 = (thread f (f (thread f s (xs.take i)).2 a).2 (xs.drop (i + 1))).2 := by
  have hi := (List.getElem?_eq_some_iff.1 h).1
  have hlength : (thread f s (xs.take i)).1.length = i := by
    rw [length_thread, List.length_take, Nat.min_eq_left (Nat.le_of_lt hi)]
  have hthread := thread_append f s (xs.take i) (a :: xs.drop (i + 1))
  rw [← eq_take_append_cons_drop h, thread_cons] at hthread
  rw [hthread]
  refine ⟨?_, rfl⟩
  rw [List.getElem?_append_right (by omega), hlength, Nat.sub_self]
  rfl

end Thread

end ZigGolf
