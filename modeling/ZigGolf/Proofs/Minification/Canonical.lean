import Mathlib.Data.Set.Operations
import Mathlib.Logic.Equiv.Basic
import ZigGolf.Proofs.Minification.Bindings

/-!
# Canonical forms

What is written for a source does not depend on the names that its author has chosen: two sources
that differ by nothing but a relabelling of their bindings are written alike (`minify_relabel`).
Their runs meet the names in the same order, and where the one gives a short name, the other gives
the same short name to the label (`Renaming.Relabelled`).
-/

namespace ZigGolf

/-! ### Relabellings -/

/-- The names that the bindings of some tokens stand for. -/
def bindingNames (ptr64 : Bool) (ts : List Token) : Set Bytes :=
  { name | ∃ i t, ts[i]? = some t ∧ t.kind = .ident ∧ behindPeriod ts i = false ∧
    Renaming.key { ptr64 } t.lexeme = name }

/-- A relabelling of some names: it gives different names different labels, a name with a fixed
meaning and an integer type are their own labels, and any other name has a label of its sort. -/
structure IsRelabelling (σ : Bytes → Bytes) (names : Set Bytes) : Prop where
  injOn : Set.InjOn σ names
  ofFixed : ∀ name ∈ names, name ∈ fixedNames → σ name = name
  ofSized : ∀ name ∈ names, isSizedInt name = true → σ name = name
  ofOther : ∀ name ∈ names, name ∉ fixedNames → isSizedInt name = false →
    σ name ∉ fixedNames ∧ isSizedInt (σ name) = false

/-- Tokens that differ by a relabelling of their bindings only: they have the same kinds, a binding
of the second list stands for the label of the name that its counterpart in the first stands for,
and all other tokens have the same text. -/
structure DifferByLabels (ptr64 : Bool) (σ : Bytes → Bytes) (ts us : List Token) : Prop where
  kinds : us.map Token.kind = ts.map Token.kind
  binding : ∀ {i t u}, ts[i]? = some t → us[i]? = some u → t.kind = .ident →
    behindPeriod ts i = false →
      Renaming.key { ptr64 } u.lexeme = σ (Renaming.key { ptr64 } t.lexeme)
  other : ∀ {i t u}, ts[i]? = some t → us[i]? = some u →
    (t.kind = .ident → behindPeriod ts i = true) → u.lexeme = t.lexeme

namespace IsRelabelling

variable {σ : Bytes → Bytes} {names : Set Bytes} {name : Bytes}

/-- A name without a fixed meaning has a label without one. -/
lemma notMem_fixedNames (h : IsRelabelling σ names) (hname : name ∈ names)
    (hfixed : name ∉ fixedNames) : σ name ∉ fixedNames := by
  by_cases hsized : isSizedInt name = true
  · rwa [h.ofSized name hname hsized]
  · exact (h.ofOther name hname hfixed (by simpa using hsized)).1

end IsRelabelling

namespace Renaming

/-- A renaming that has met the labels of some names where another one has met these names. -/
structure Relabelled (σ : Bytes → Bytes) (names : Set Bytes) (r₁ r₂ : Renaming) : Prop where
  ptr64_eq : r₂.ptr64 = r₁.ptr64
  cursor_eq : r₂.cursor = r₁.cursor
  assigned_eq : ∀ name ∈ names, r₂.assigned[σ name]? = r₁.assigned[name]?

variable {σ : Bytes → Bytes} {names : Set Bytes} {r₁ r₂ : Renaming} {name : Bytes}

/-- At the start there is nothing to relabel. -/
lemma relabelled_empty (σ : Bytes → Bytes) (names : Set Bytes) (ptr64 : Bool) :
    Relabelled σ names { ptr64 } { ptr64 } := by
  constructor <;> simp

/-- The next short name does not depend on the names that have got one. -/
lemma Relabelled.nextPlace_eq (h : Relabelled σ names r₁ r₂) : r₂.nextPlace = r₁.nextPlace := by
  rw [nextPlace, nextPlace, h.ptr64_eq, h.cursor_eq]

/-- A short name is given to a name and to its label at once. -/
lemma Relabelled.assign (h : Relabelled σ names r₁ r₂) (hσ : Set.InjOn σ names)
    (hname : name ∈ names) : Relabelled σ names (r₁.assign name) (r₂.assign (σ name)) := by
  refine ⟨h.ptr64_eq, ?_, fun other hother => ?_⟩
  · change r₂.nextPlace + 1 = r₁.nextPlace + 1
    rw [h.nextPlace_eq]
  · rw [getElem?_assign, getElem?_assign, h.nextPlace_eq, h.assigned_eq other hother]
    by_cases heq : name = other
    · rw [if_pos heq, if_pos (congrArg σ heq)]
    · have hne : σ name ≠ σ other := fun hlabel => heq (hσ hname hother hlabel)
      rw [if_neg heq, if_neg hne]

/-- A name and its label get the same spelling, and the two renamings stay in step. -/
lemma Relabelled.rename (h : Relabelled σ names r₁ r₂) (hσ : IsRelabelling σ names)
    (hname : name ∈ names) :
    ∃ r₂', r₂.rename (σ name) = ((r₁.rename name).1, r₂') ∧
      Relabelled σ names (r₁.rename name).2 r₂' := by
  have hassigned := h.assigned_eq name hname
  rcases r₁.rename_cases name with ⟨hfixed, hr⟩ | ⟨hfixed, short, hshort, hr⟩ |
    ⟨hfixed, hnone, hsized, hr⟩ | ⟨hfixed, hnone, hsized, hr⟩
  · rw [hr, hσ.ofFixed name hname hfixed]
    refine ⟨r₂, ?_, h⟩
    rw [rename_of_fixed hfixed, h.ptr64_eq]
  · rw [hr]
    rw [hshort] at hassigned
    exact ⟨r₂, rename_of_assigned (hσ.notMem_fixedNames hname hfixed) hassigned, h⟩
  · have hself := hσ.ofSized name hname hsized
    rw [hnone, hself] at hassigned
    rw [hr, hself]
    exact ⟨r₂, rename_of_sized hfixed hassigned hsized, h⟩
  · obtain ⟨hfixed', hsized'⟩ := hσ.ofOther name hname hfixed hsized
    rw [hnone] at hassigned
    rw [hr]
    refine ⟨r₂.assign (σ name), ?_, h.assign hσ.injOn hname⟩
    rw [rename_of_new hfixed' hassigned hsized', h.nextPlace_eq]

/-- One token: what is written for it is written for the token with the label, too. -/
lemma Relabelled.spell (h : Relabelled σ names r₁ r₂) (hσ : IsRelabelling σ names) (m : Minifier)
    {t u : Token} (hkind : u.kind = t.kind)
    (hbinding : t.kind = .ident → m.last ≠ .punct .period →
      r₁.key t.lexeme ∈ names ∧ r₂.key u.lexeme = σ (r₁.key t.lexeme))
    (hother : (t.kind = .ident → m.last = .punct .period) → u.lexeme = t.lexeme) :
    ∃ r₂', m.spell r₂ u = ((m.spell r₁ t).1, r₂') ∧
      Relabelled σ names (m.spell r₁ t).2 r₂' := by
  rcases spell_cases m r₁ t with ⟨hident, hlast, hspell⟩ | ⟨code, hchar, hcode, hspell⟩ |
    ⟨hperiod, hchar, hspell⟩
  · obtain ⟨hname, hlabel⟩ := hbinding hident hlast
    obtain ⟨r₂', hrename, hnext⟩ := h.rename hσ hname
    rw [hspell]
    refine ⟨r₂', ?_, hnext⟩
    have hagain : r₂.renameIdentifier u.lexeme = ((r₁.renameIdentifier t.lexeme).1, r₂') := by
      rw [renameIdentifier, hlabel]
      exact hrename
    rw [spell_of_binding r₂ (hkind.trans hident) hlast, hagain]
  · have htext : u.lexeme = t.lexeme := hother (by simp [hchar])
    rw [hspell]
    exact ⟨r₂, by rw [Minifier.spell, hkind, hchar, htext, hcode], h⟩
  · have htext : u.lexeme = t.lexeme := hother hperiod
    rw [hspell]
    refine ⟨r₂, ?_, h⟩
    rw [← hkind] at hperiod hchar
    rw [spell_of_other r₂ hperiod (by rwa [htext]), hkind, htext]

end Renaming

/-! ### Two runs in step -/

section Run

variable {ptr64 : Bool} {σ : Bytes → Bytes} {ts us : List Token}

/-- Relabelling keeps the number of tokens. -/
lemma DifferByLabels.length_eq (h : DifferByLabels ptr64 σ ts us) : us.length = ts.length := by
  simpa using congrArg List.length h.kinds

/-- One step of two runs: behind a token and its counterpart the same is written, and the two runs
stay in step. -/
lemma DifferByLabels.write (h : DifferByLabels ptr64 σ ts us)
    (hσ : IsRelabelling σ (bindingNames ptr64 ts)) {i : Nat} {t u : Token}
    (ht : ts[i]? = some t) (hu : us[i]? = some u) {m : Minifier} {r₁ r₂ : Renaming}
    (hstep : r₁.Relabelled σ (bindingNames ptr64 ts) r₂) (hptr : r₁.ptr64 = ptr64)
    (hlast : m.last = .punct .period ↔ behindPeriod ts i = true) :
    ∃ r₂', Minifier.write (m, r₂) u =
        ((Minifier.write (m, r₁) t).1, ((Minifier.write (m, r₁) t).2.1, r₂')) ∧
      (Minifier.write (m, r₁) t).2.2.Relabelled σ (bindingNames ptr64 ts) r₂' := by
  have hkind : u.kind = t.kind := by
    have hget := congrArg (fun ks => ks[i]?) h.kinds
    simpa [ht, hu] using hget
  have hkey₁ : r₁.key t.lexeme = Renaming.key { ptr64 } t.lexeme := Renaming.key_congr hptr _
  have hkey₂ : r₂.key u.lexeme = Renaming.key { ptr64 } u.lexeme :=
    Renaming.key_congr (hstep.ptr64_eq.trans hptr) _
  have hbinding : t.kind = .ident → m.last ≠ .punct .period →
      r₁.key t.lexeme ∈ bindingNames ptr64 ts ∧ r₂.key u.lexeme = σ (r₁.key t.lexeme) := by
    intro hident hnot
    have hbehind : behindPeriod ts i = false := by
      rwa [ne_eq, hlast, Bool.not_eq_true] at hnot
    rw [hkey₁, hkey₂]
    exact ⟨⟨i, t, ht, hident, hbehind, rfl⟩, h.binding ht hu hident hbehind⟩
  have hother : (t.kind = .ident → m.last = .punct .period) → u.lexeme = t.lexeme := by
    intro hperiod
    exact h.other ht hu fun hident => hlast.1 (hperiod hident)
  obtain ⟨r₂', hspell, hnext⟩ := hstep.spell hσ m hkind hbinding hother
  exact ⟨r₂', by simp only [Minifier.write, hspell], hnext⟩

/-- Two runs over tokens that differ by labels only are in step behind any number of tokens. -/
lemma DifferByLabels.run (h : DifferByLabels ptr64 σ ts us)
    (hσ : IsRelabelling σ (bindingNames ptr64 ts)) {n : Nat} (hn : n ≤ ts.length) :
    ∃ ps m r₁ r₂, thread Minifier.write ({}, { ptr64 }) (ts.take n) = (ps, (m, r₁)) ∧
      thread Minifier.write ({}, { ptr64 }) (us.take n) = (ps, (m, r₂)) ∧
      r₁.Relabelled σ (bindingNames ptr64 ts) r₂ := by
  induction n with
  | zero => exact ⟨[], {}, _, _, rfl, rfl, Renaming.relabelled_empty σ _ ptr64⟩
  | succ n ih =>
    have hlt : n < ts.length := hn
    have hlt' : n < us.length := by rwa [h.length_eq]
    obtain ⟨ps, m, r₁, r₂, hrun₁, hrun₂, hstep⟩ := ih hlt.le
    have hlast := last_eq_period_iff hlt { ptr64 }
    have hptr := ptr64_thread_write {} { ptr64 } (ts.take n)
    rw [hrun₁] at hlast hptr
    dsimp only at hlast hptr
    obtain ⟨r₂', hwrite, hnext⟩ := h.write hσ (List.getElem?_eq_getElem hlt)
      (List.getElem?_eq_getElem hlt') hstep hptr hlast
    refine ⟨ps ++ [(Minifier.write (m, r₁) ts[n]).1], (Minifier.write (m, r₁) ts[n]).2.1, _, r₂',
      ?_, ?_, hnext⟩
    · rw [List.take_succ_eq_append_getElem hlt, thread_append, hrun₁]
      simp
    · rw [List.take_succ_eq_append_getElem hlt', thread_append, hrun₂]
      simp [hwrite]

end Run

/-! ### Result -/

/-- If two sources are accepted and differ only by the labels of their bindings, the same text is
written for them. -/
theorem minify_relabel {ptr64 : Bool} {file file' : UInt32} {source source' output : Bytes}
    (h : (minify ptr64 file source).1 = some output)
    (h' : (minify ptr64 file' source').1.isSome = true) {σ : Bytes → Bytes}
    (hσ : IsRelabelling σ (bindingNames ptr64 (keptTokens file source)))
    (hdiffer : DifferByLabels ptr64 σ (keptTokens file source) (keptTokens file' source')) :
    (minify ptr64 file' source').1 = some output := by
  obtain ⟨output', houtput'⟩ := Option.isSome_iff_exists.1 h'
  obtain ⟨E, hE, hjoin⟩ := Option.map_eq_some_iff.1 h
  obtain ⟨E', hE', hjoin'⟩ := Option.map_eq_some_iff.1 houtput'
  obtain ⟨-, -, rfl⟩ := minifyRun_eq_some_iff.1 hE
  obtain ⟨-, -, rfl⟩ := minifyRun_eq_some_iff.1 hE'
  obtain ⟨ps, m, r₁, r₂, hrun₁, hrun₂, -⟩ := hdiffer.run hσ le_rfl
  rw [List.take_length] at hrun₁
  rw [← hdiffer.length_eq, List.take_length] at hrun₂
  rw [houtput', ← hjoin, ← hjoin', hrun₁, hrun₂]

/-- To exchange two names that a program has chosen is a relabelling. -/
lemma isRelabelling_swap {a b : Bytes} (ha : a ∉ fixedNames) (hb : b ∉ fixedNames)
    (ha' : isSizedInt a = false) (hb' : isSizedInt b = false) (names : Set Bytes) :
    IsRelabelling (Equiv.swap a b) names := by
  refine ⟨fun x _ y _ heq => (Equiv.swap a b).injective heq, ?_, ?_, ?_⟩
  · intro name _ hfixed
    refine Equiv.swap_apply_of_ne_of_ne ?_ ?_
    · rintro rfl
      exact ha hfixed
    · rintro rfl
      exact hb hfixed
  · intro name _ hsized
    refine Equiv.swap_apply_of_ne_of_ne ?_ ?_
    · rintro rfl
      simp [ha'] at hsized
    · rintro rfl
      simp [hb'] at hsized
  · intro name _ hfixed hsized
    rw [Equiv.swap_apply_def]
    split_ifs with heqa heqb
    · exact ⟨hb, hb'⟩
    · exact ⟨ha, ha'⟩
    · exact ⟨hfixed, hsized⟩

/-- The names of `f-a.a` are exchanged, one of them with quotes, and the member stays. -/
theorem minify_relabel_of_swap :
    (minify false 0 (ascii "f-a.a")).1 = some (ascii "a-b.a") ∧
      (minify false 0 (ascii "a-@\"f\".a")).1 = some (ascii "a-b.a") := by
  obtain ⟨h, h', hts, hus⟩ : (minify false 0 (ascii "f-a.a")).1 = some (ascii "a-b.a") ∧
      (minify false 0 (ascii "a-@\"f\".a")).1.isSome = true ∧
      keptTokens 0 (ascii "f-a.a") =
        [⟨.ident, ⟨0, 0, 1⟩, ascii "f"⟩, ⟨.punct .minus, ⟨0, 1, 2⟩, ascii "-"⟩,
          ⟨.ident, ⟨0, 2, 3⟩, ascii "a"⟩, ⟨.punct .period, ⟨0, 3, 4⟩, ascii "."⟩,
          ⟨.ident, ⟨0, 4, 5⟩, ascii "a"⟩] ∧
      keptTokens 0 (ascii "a-@\"f\".a") =
        [⟨.ident, ⟨0, 0, 1⟩, ascii "a"⟩, ⟨.punct .minus, ⟨0, 1, 2⟩, ascii "-"⟩,
          ⟨.ident, ⟨0, 2, 6⟩, ascii "@\"f\""⟩, ⟨.punct .period, ⟨0, 6, 7⟩, ascii "."⟩,
          ⟨.ident, ⟨0, 7, 8⟩, ascii "a"⟩] := by
    decide +kernel
  have hσ : IsRelabelling (Equiv.swap (ascii "f") (ascii "a"))
      (bindingNames false (keptTokens 0 (ascii "f-a.a"))) :=
    isRelabelling_swap (by decide) (by decide) (by decide) (by decide) _
  refine ⟨h, minify_relabel h h' hσ ?_⟩
  rw [hts, hus]
  refine ⟨rfl, ?_, ?_⟩
  · intro i t u ht hu hident hbehind
    rcases i with - | - | - | - | - | i
    · obtain ⟨rfl, rfl⟩ := And.intro (Option.some.inj ht) (Option.some.inj hu)
      decide
    · simp [← Option.some.inj ht] at hident
    · obtain ⟨rfl, rfl⟩ := And.intro (Option.some.inj ht) (Option.some.inj hu)
      decide
    · simp [← Option.some.inj ht] at hident
    · simp [behindPeriod] at hbehind
    · simp at ht
  · intro i t u ht hu hbehind
    rcases i with - | - | - | - | - | i
    · simp [behindPeriod, ← Option.some.inj ht] at hbehind
    · rw [← Option.some.inj ht, ← Option.some.inj hu]
    · simp [behindPeriod, ← Option.some.inj ht] at hbehind
    · rw [← Option.some.inj ht, ← Option.some.inj hu]
    · rw [← Option.some.inj ht, ← Option.some.inj hu]
    · simp at ht

end ZigGolf
