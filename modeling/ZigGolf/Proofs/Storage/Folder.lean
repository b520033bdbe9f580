import ZigGolf.Storage.Folder
import Mathlib.Data.List.Basic

/-!
# Writing to a folder

A file can be written at a path if and only if the path leads somewhere and no directory stands
there.  Afterwards the path leads to the same place, the new content is found there, and at all
other places there is what was there before (`Folder.exists_write`). -/

namespace ZigGolf

namespace Folder

variable {f f' : Folder} {path content : Bytes} {place : Place}

/-- A file can be written at a path. -/
def Writable (f : Folder) (path : Bytes) : Prop :=
  ∃ place, f.locate path = .ok place ∧ f.entry? place ≠ some .directory

/-- A folder in which a file at a place has a new content, and nothing else is new. -/
structure Changed (f : Folder) (place : Place) (content : Bytes) (f' : Folder) : Prop where
  entry?_place : f'.entry? place = some (.file content)
  entry?_of_ne : ∀ p, p ≠ place → f'.entry? p = f.entry? p

/-! ### Entries -/

/-- The file in front hides those of the same place behind it. -/
lemma lookup_cons_eq (p q : Place) (content : Bytes) (files : List (Place × Bytes)) :
    ((q, content) :: files).lookup p = if p = q then some content else files.lookup p := by
  by_cases h : p = q
  · rw [if_pos h, h, List.lookup_cons_self]
  · rw [if_neg h, List.lookup_cons, beq_false_of_ne h]

/-- Replacing the content at a place changes no other place. -/
lemma lookup_update (files : List (Place × Bytes)) (place p : Place) (content : Bytes) :
    (files.map fun q => if q.1 = place then (place, content) else q).lookup p =
      if p = place then (files.lookup p).map fun _ => content else files.lookup p := by
  induction files with
  | nil => simp
  | cons q files ih =>
    obtain ⟨q, old⟩ := q
    rw [List.map_cons, lookup_cons_eq p q old files]
    dsimp only
    by_cases hq : q = place
    · rw [if_pos hq, lookup_cons_eq, ih, hq]
      split
      · rfl
      · rfl
    · rw [if_neg hq, lookup_cons_eq, ih]
      by_cases hp : p = q
      · have hne : p ≠ place := hp ▸ hq
        rw [if_pos hp, if_neg hne, if_pos hp]
      · rw [if_neg hp, if_neg hp]

/-- Where a file stands already, its content is changed. -/
lemma changed_update {old : Bytes} (h : f.entry? place = some (.file old)) :
    f.Changed place content
      { f with files := f.files.map fun q => if q.1 = place then (place, content) else q } := by
  have hold : f.files.lookup place = some old := by
    unfold entry? at h
    split at h
    · next found hfound => rw [hfound, Entry.file.inj (Option.some.inj h)]
    · split at h <;> simp at h
  constructor
  · simp only [ entry?, lookup_update, hold, ↓reduceIte, Option.map_some]
  · intro p hp
    simp only [ entry?, lookup_update, hp, ↓reduceIte]

/-- Where nothing stands, a file is made. -/
lemma changed_insert : f.Changed place content { f with files := (place, content) :: f.files } := by
  constructor
  · simp only [ entry?, lookup_cons_eq, ↓reduceIte]
  · intro p hp
    simp only [ entry?, lookup_cons_eq, hp, ↓reduceIte]

/-! ### Paths -/

/-- No path leads through a file, so a path that leads somewhere still does so if a file changes. -/
lemma Changed.follow (h : f.Changed place content f') (hplace : f.entry? place ≠ some .directory)
    {start q : Place} {names : List Bytes} (hfollow : f.follow start names = .ok q) :
    f'.follow start names = .ok q := by
  induction names generalizing start with
  | nil => exact hfollow
  | cons name names ih =>
    unfold Folder.follow at hfollow ⊢
    cases hstart : f.entry? start with
    | none => simp [hstart] at hfollow
    | some entry =>
      cases entry with
      | file old => simp [hstart] at hfollow
      | directory =>
        have hne : start ≠ place := by
          rintro rfl
          exact hplace hstart
        rw [hstart] at hfollow
        rw [h.entry?_of_ne start hne, hstart]
        dsimp only at hfollow ⊢
        by_cases hstay : name = [] ∨ name = ascii "."
        · rw [if_pos hstay] at hfollow ⊢
          exact ih hfollow
        rw [if_neg hstay] at hfollow ⊢
        by_cases hback : name = ascii ".."
        · rw [if_pos hback] at hfollow ⊢
          exact ih hfollow
        rw [if_neg hback] at hfollow ⊢
        by_cases hlong : maxNameLength < name.length
        · rw [if_pos hlong] at hfollow
          simp at hfollow
        · rw [if_neg hlong] at hfollow ⊢
          exact ih hfollow

/-- Paths lead to the same places after a file has changed. -/
lemma Changed.locate (h : f.Changed place content f') (hplace : f.entry? place ≠ some .directory)
    {q : Place} (hlocate : f.locate path = .ok q) : f'.locate path = .ok q := by
  unfold Folder.locate at hlocate ⊢
  dsimp only at hlocate ⊢
  by_cases hempty : pathText path = []
  · simp [hempty] at hlocate
  rw [if_neg hempty] at hlocate ⊢
  by_cases hlong : maxPathLength < (pathText path).length
  · rw [if_pos hlong] at hlocate
    simp at hlocate
  · rw [if_neg hlong] at hlocate ⊢
    exact h.follow hplace hlocate

/-! ### Writing -/

/-- Where a file can be written it is written: it is read back at the path, and nothing changes at
any other place. -/
lemma exists_write (h : f.Writable path) (content : Bytes) :
    ∃ f', f.write path content = .ok f' ∧ f'.read path = .ok content ∧
      ∃ place, f.locate path = .ok place ∧ f.Changed place content f' := by
  obtain ⟨place, hlocate, hplace⟩ := h
  have hread : ∀ {f' : Folder}, f.Changed place content f' → f'.read path = .ok content := by
    intro f' hchanged
    unfold Folder.read
    rw [hchanged.locate hplace hlocate]
    dsimp only
    rw [hchanged.entry?_place]
  cases hentry : f.entry? place with
  | none =>
    refine ⟨_, ?_, hread changed_insert, place, hlocate, changed_insert⟩
    simp only [write, hlocate, hentry]
  | some entry =>
    cases entry with
    | directory => exact absurd hentry hplace
    | file old =>
      have hchanged : f.Changed place content _ := changed_update hentry
      refine ⟨_, ?_, hread hchanged, place, hlocate, hchanged⟩
      simp only [write, hlocate, hentry]

/-- Where nothing can be written, writing fails. -/
lemma write_of_not_writable (h : ¬ f.Writable path) (content : Bytes) :
    ∃ e, f.write path content = .error e := by
  unfold write
  cases hlocate : f.locate path with
  | error e => exact ⟨e, rfl⟩
  | ok place =>
    have hentry : f.entry? place = some .directory := by
      by_contra hnot
      exact h ⟨place, hlocate, hnot⟩
    exact ⟨.isADirectory, by simp only [hentry]⟩

end Folder

end ZigGolf
