import ZigGolf.Proofs.Minification.Run
import ZigGolf.Proofs.Naming.Binding

/-!
# Renaming over a whole run

The short names of a run are given as its tokens are met.  A name that has been met is settled for
the rest of the run, so every identifier is written as the renaming at the end of the run writes it.
At that point bindings and spellings correspond one to one (`bindings_correspond`), provided that
the source is short enough for 64-bit places of short names.
-/

namespace ZigGolf

/-! ### Steps of a run -/

/-- The kind that is remembered behind some tokens is that of the last one. -/
lemma last_thread_write (m : Minifier) (names : Renaming) (ts : List Token) :
    (thread Minifier.write (m, names) ts).2.1.last =
      (ts.getLast?).elim m.last Token.writtenKind := by
  induction ts generalizing m names with
  | nil => rfl
  | cons t ts ih =>
    rw [thread_cons]
    refine (ih (Minifier.write (m, names) t).2.1 (Minifier.write (m, names) t).2.2).trans ?_
    cases ts with
    | nil => exact kind_spell m names t
    | cons t' ts => rw [List.getLast?_cons_cons, List.getLast?_cons]; rfl

/-- Writing tokens does not change the size of pointers. -/
@[simp] lemma ptr64_thread_write (m : Minifier) (names : Renaming) (ts : List Token) :
    (thread Minifier.write (m, names) ts).2.2.ptr64 = names.ptr64 := by
  induction ts generalizing m names with
  | nil => rfl
  | cons t ts ih =>
    rw [thread_cons]
    refine (ih _ (m.spell names t).2).trans ?_
    rcases names_spell m names t with h | ⟨other, h⟩
    · rw [h]
    · rw [h, names.ptr64_rename]

/-- Names that are settled stay so over a whole run. -/
lemma settled_thread_write {names : Renaming} {name spelling : Bytes}
    (h : names.Settled name spelling) (m : Minifier) (ts : List Token) :
    (thread Minifier.write (m, names) ts).2.2.Settled name spelling := by
  induction ts generalizing m names with
  | nil => exact h
  | cons t ts ih =>
    have hstep : (m.spell names t).2.Settled name spelling := by
      rcases names_spell m names t with heq | ⟨other, heq⟩
      · rwa [heq]
      · rw [heq]
        exact h.rename other
    rw [thread_cons]
    exact ih hstep _

/-- Whatever token is written, no short name is given twice. -/
lemma distinct_spell (m : Minifier) {names : Renaming} {n : Nat} (h : names.Distinct n)
    (hn : n < 2 ^ 32) (t : Token) : (m.spell names t).2.Distinct (n + 1) := by
  rcases names_spell m names t with heq | ⟨other, heq⟩
  · rw [heq]
    exact h.succ
  · rw [heq]
    exact h.rename hn other

/-- A run keeps short names proper and gives none of them twice. -/
lemma names_thread_write {ts : List Token} (m : Minifier) {names : Renaming} {n : Nat}
    (hproper : names.Proper) (hdistinct : names.Distinct n) (hn : n + ts.length ≤ 2 ^ 32) :
    (thread Minifier.write (m, names) ts).2.2.Proper ∧
      (thread Minifier.write (m, names) ts).2.2.Distinct (n + ts.length) := by
  induction ts generalizing m names n with
  | nil => exact ⟨hproper, hdistinct⟩
  | cons t ts ih =>
    rw [List.length_cons] at hn
    rw [thread_cons, List.length_cons, Nat.add_comm ts.length, ← Nat.add_assoc]
    exact ih (Minifier.write (m, names) t).2.1 (proper_spell m hproper t)
      (distinct_spell m hdistinct (by omega) t) (by omega)

/-! ### Sizes -/

/-- No more tokens are kept than the source has bytes. -/
lemma length_keptTokens_le (file : UInt32) {source : Bytes} (hs : Utf8.WellFormed source) :
    (keptTokens file source).length ≤ source.length := by
  rw [keptTokens_eq hs]
  exact (List.length_filter_le _ _).trans (length_tokensOfText_le file source)

/-! ### Identifiers of a run -/

/-- Whether a token of a list stands directly behind a period. -/
def behindPeriod (ts : List Token) : Nat → Bool
  | 0 => false
  | i + 1 => (ts[i]?).any fun t => t.kind == .punct .period

/-- A binding of a run: the token at an index is an identifier with the lexeme `x` that does not
stand behind a period, and `v` is written for it. -/
structure IsBinding (ts : List Token) (ps : List Piece) (i : Nat) (x v : Bytes) : Prop where
  token : ∃ t, ts[i]? = some t ∧ t.kind = .ident ∧ t.lexeme = x
  piece : ∃ p, ps[i]? = some p ∧ p.text = v
  notBehindPeriod : behindPeriod ts i = false

/-- How a binding may be written: as a plain name that is no keyword, as its meaning demands if that
is fixed, as it is if it is an integer type, and else with no spelling that means something else. -/
structure IsSpelling (ptr64 : Bool) (name v : Bytes) : Prop where
  isPlainName : isPlainName v = true
  notKeyword : v ∉ keywordSpellings
  ofFixed : name ∈ fixedNames → v = fixedSpelling ptr64 name
  ofSized : isSizedInt name = true → v = name
  ofOther : name ∉ fixedNames → isSizedInt name = false →
    isReserved ptr64 v = false ∧ isSizedInt v = false

/-- A period is written for a period only. -/
lemma Token.writtenKind_eq_period_iff {t : Token} :
    t.writtenKind = .punct .period ↔ t.kind = .punct .period := by
  unfold Token.writtenKind
  split
  · next h => simp [h.1]
  · rfl

/-- The minifier remembers a period exactly in front of the tokens that stand behind one. -/
lemma last_eq_period_iff {ts : List Token} {i : Nat} (hi : i < ts.length) (names : Renaming) :
    (thread Minifier.write ({}, names) (ts.take i)).2.1.last = .punct .period ↔
      behindPeriod ts i = true := by
  rw [last_thread_write]
  cases i with
  | zero => simp [behindPeriod]
  | succ i =>
    have hget : ts[i]? = some ts[i] := List.getElem?_eq_getElem (by omega)
    rw [List.getLast?_take, if_neg (Nat.succ_ne_zero i), Nat.add_sub_cancel, behindPeriod, hget]
    simpa using Token.writtenKind_eq_period_iff

/-- How a settled name is written. -/
lemma Renaming.Proper.isSpelling {r : Renaming} (hp : r.Proper) {name v : Bytes}
    (h : r.Settled name v) : IsSpelling r.ptr64 name v := by
  obtain ⟨hplain, hkeyword⟩ := hp.isPlainName_rename name
  have hv : (r.rename name).1 = v := by rw [h]
  rw [hv] at hplain hkeyword
  refine ⟨hplain, hkeyword, fun hfixed => h.unique (rename_of_fixed hfixed),
    fun hsized => hp.spelling_of_isSizedInt hsized h, fun hfixed hsized => ?_⟩
  rcases settled_iff.1 h with ⟨hmem, -⟩ | ⟨-, hassigned⟩ | ⟨-, -, hsized', -⟩
  · exact absurd hmem hfixed
  · obtain ⟨htaken, hshort⟩ := hp.short_spec hassigned
    exact ⟨isReserved_eq_false_of_notMem htaken, hshort⟩
  · rw [hsized] at hsized'
    simp at hsized'

section Run

variable {ts : List Token} {i : Nat} {t : Token}

/-- The renaming at the end of a run. -/
def finalNames (ptr64 : Bool) (ts : List Token) : Renaming :=
  (thread Minifier.write ({}, { ptr64 }) ts).2.2

/-- At the end of a run no short name has been given twice, and all are as they may be given. -/
lemma finalNames_spec (ptr64 : Bool) (hlength : ts.length ≤ 2 ^ 32) :
    (finalNames ptr64 ts).Proper ∧ (finalNames ptr64 ts).Distinct ts.length := by
  have h := names_thread_write {} (Renaming.proper_empty ptr64) (Renaming.distinct_empty ptr64)
    (by omega : 0 + ts.length ≤ 2 ^ 32)
  rwa [Nat.zero_add] at h

/-- An identifier behind a period is written as it is, and any other as the renaming at the end of
the run writes it. -/
lemma exists_piece_of_ident (ptr64 : Bool) (ht : ts[i]? = some t) (hident : t.kind = .ident) :
    ∃ p, (thread Minifier.write ({}, { ptr64 }) ts).1[i]? = some p ∧
      (behindPeriod ts i = true → p.text = t.lexeme) ∧
      (behindPeriod ts i = false →
        (finalNames ptr64 ts).Settled ((finalNames ptr64 ts).key t.lexeme) p.text) := by
  have hlast := last_eq_period_iff (List.getElem?_eq_some_iff.1 ht).1 { ptr64 }
  obtain ⟨hpiece, hfinal⟩ := getElem?_thread Minifier.write ({}, { ptr64 }) ht
  have hptr := ptr64_thread_write {} { ptr64 } (ts.take i)
  rcases hstate : (thread Minifier.write ({}, { ptr64 }) (ts.take i)).2 with ⟨m, names⟩
  rw [hstate] at hlast hpiece hfinal hptr
  refine ⟨_, hpiece, fun hbehind => ?_, fun hbehind => ?_⟩
  · change (m.spell names t).1.2 = t.lexeme
    rcases spell_cases m names t with ⟨-, hnot, -⟩ | ⟨code, hkind, -⟩ | ⟨-, -, hspell⟩
    · exact absurd (hlast.2 hbehind) hnot
    · simp [hident] at hkind
    · rw [hspell]
  · change (finalNames ptr64 ts).Settled _ (m.spell names t).1.2
    rcases spell_cases m names t with ⟨-, -, hspell⟩ | ⟨code, hkind, -⟩ | ⟨hperiod, -⟩
    · have hsettled := names.settled_rename (names.key t.lexeme)
      have hnames : (Minifier.write (m, names) t).2.2 = (names.rename (names.key t.lexeme)).2 := by
        change (m.spell names t).2 = _
        rw [hspell]
        rfl
      rw [← hnames] at hsettled
      have hend := settled_thread_write hsettled (Minifier.write (m, names) t).2.1 (ts.drop (i + 1))
      have hkey : (finalNames ptr64 ts).key t.lexeme = names.key t.lexeme :=
        Renaming.key_congr (by rw [finalNames, ptr64_thread_write, hptr]) t.lexeme
      rw [hkey, hspell, finalNames, hfinal]
      exact hend
    · simp [hident] at hkind
    · rw [hlast.1 (hperiod hident)] at hbehind
      simp at hbehind

/-- A binding of a run is settled at its end. -/
lemma IsBinding.settled {ptr64 : Bool} {x v : Bytes}
    (h : IsBinding ts (thread Minifier.write ({}, { ptr64 }) ts).1 i x v) :
    (finalNames ptr64 ts).Settled ((finalNames ptr64 ts).key x) v := by
  obtain ⟨t, ht, hident, rfl⟩ := h.token
  obtain ⟨p, hp, rfl⟩ := h.piece
  obtain ⟨p', hp', -, hsettled⟩ := exists_piece_of_ident ptr64 ht hident
  obtain rfl : p' = p := by
    rw [hp'] at hp
    exact Option.some.inj hp
  exact hsettled h.notBehindPeriod

end Run

/-! ### Results -/

/-- The bindings of a source that is accepted, as they are written: two of them are written alike if
and only if they are the same, each is written as it may be, and identifiers behind a period are
written as they are. -/
theorem bindings_correspond {ptr64 : Bool} {file : UInt32} {source : Bytes} {E : List Piece}
    (h : (minifyRun ptr64 file source).pieces = some E) (hlength : source.length < 2 ^ 32) :
    E.length = (keptTokens file source).length ∧
      (∀ {i j x y v w}, IsBinding (keptTokens file source) E i x v →
        IsBinding (keptTokens file source) E j y w → (v = w ↔ SameBinding ptr64 x y)) ∧
      (∀ {i x v}, IsBinding (keptTokens file source) E i x v →
        IsSpelling ptr64 (Renaming.key { ptr64 } x) v) ∧
      ∀ {i t}, (keptTokens file source)[i]? = some t → t.kind = .ident →
        behindPeriod (keptTokens file source) i = true →
          ∃ p, E[i]? = some p ∧ p.text = t.lexeme := by
  obtain ⟨hs, -, rfl⟩ := minifyRun_eq_some_iff.1 h
  have hle := length_keptTokens_le file hs
  obtain ⟨hproper, hdistinct⟩ :=
    finalNames_spec ptr64 (by omega : (keptTokens file source).length ≤ 2 ^ 32)
  have hptr : (finalNames ptr64 (keptTokens file source)).ptr64 = ptr64 :=
    ptr64_thread_write {} { ptr64 } _
  refine ⟨length_thread _ _ _, fun hx hy => ?_, fun {i x v} hx => ?_, fun ht hident hbehind => ?_⟩
  · have hiff := hproper.spelling_eq_iff_sameBinding hdistinct hx.settled hy.settled
    rwa [hptr] at hiff
  · have hspelling := hproper.isSpelling hx.settled
    have hkey : (finalNames ptr64 (keptTokens file source)).key x = Renaming.key { ptr64 } x :=
      Renaming.key_congr hptr x
    rwa [hptr, hkey] at hspelling
  · obtain ⟨p, hp, hmember, -⟩ := exists_piece_of_ident ptr64 ht hident
    exact ⟨p, hp, hmember hbehind⟩

/-- In `f(@"f",g)` the quotes are redundant, and the two names are different bindings. -/
theorem bindings_correspond_of_quotes :
    SameBinding false (ascii "f") (ascii "@\"f\"") ∧
      ¬ SameBinding false (ascii "f") (ascii "g") := by
  obtain ⟨hpieces, htokens⟩ : (minifyRun false 0 (ascii "f(@\"f\",g)")).pieces =
        some [⟨false, .ident, ascii "a"⟩, ⟨false, .punct .openParen, ascii "("⟩,
          ⟨false, .ident, ascii "a"⟩, ⟨false, .punct .comma, ascii ","⟩,
          ⟨false, .ident, ascii "b"⟩, ⟨false, .punct .closeParen, ascii ")"⟩] ∧
      keptTokens 0 (ascii "f(@\"f\",g)") =
        [⟨.ident, ⟨0, 0, 1⟩, ascii "f"⟩, ⟨.punct .openParen, ⟨0, 1, 2⟩, ascii "("⟩,
          ⟨.ident, ⟨0, 2, 6⟩, ascii "@\"f\""⟩, ⟨.punct .comma, ⟨0, 6, 7⟩, ascii ","⟩,
          ⟨.ident, ⟨0, 7, 8⟩, ascii "g"⟩, ⟨.punct .closeParen, ⟨0, 8, 9⟩, ascii ")"⟩] := by
    decide +kernel
  obtain ⟨-, hsame, -⟩ := bindings_correspond hpieces (by decide)
  rw [htokens] at hsame
  constructor
  · exact (hsame (i := 0) (j := 2) ⟨⟨_, rfl, rfl, rfl⟩, ⟨_, rfl, rfl⟩, rfl⟩
      ⟨⟨_, rfl, rfl, rfl⟩, ⟨_, rfl, rfl⟩, rfl⟩).1 rfl
  · intro h
    exact absurd ((hsame (i := 0) (j := 4) ⟨⟨_, rfl, rfl, rfl⟩, ⟨_, rfl, rfl⟩, rfl⟩
      ⟨⟨_, rfl, rfl, rfl⟩, ⟨_, rfl, rfl⟩, rfl⟩).2 h) (by decide)

end ZigGolf
