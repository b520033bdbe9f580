import ZigGolf.Proofs.Minification.Bindings

/-!
# Minifying twice

If what a run writes has no gluing spot, the same text is written when it is minified once more
(`minify_output`).  The second run reads the pieces of the first, and it meets the names in the same
order.  So it goes in step with the first: where that one gave a short name, it gives this short
name to itself (`Renaming.Mirrors`).
-/

namespace ZigGolf

namespace Renaming

/-- A renaming that has met the spellings of another one where that has met the names: it has given
each short name to itself. -/
structure Mirrors (r₁ r₂ : Renaming) : Prop where
  ptr64_eq : r₂.ptr64 = r₁.ptr64
  cursor_eq : r₂.cursor = r₁.cursor
  assigned_iff : ∀ {name short : Bytes}, r₂.assigned[name]? = some short ↔
    name = short ∧ ∃ other : Bytes, r₁.assigned[other]? = some short

variable {r₁ r₂ : Renaming} {n : Nat}

/-- At the start the two renamings are alike. -/
lemma mirrors_empty (ptr64 : Bool) : Mirrors { ptr64 } { ptr64 } := by
  constructor <;> simp

/-- The second run gives the short name next that the first one gave. -/
lemma Mirrors.nextPlace_eq (h : Mirrors r₁ r₂) : r₂.nextPlace = r₁.nextPlace := by
  rw [nextPlace, nextPlace, h.ptr64_eq, h.cursor_eq]

/-- What is no short name of the one renaming has none in the other. -/
lemma Mirrors.getElem?_eq_none (h : Mirrors r₁ r₂) {v : Bytes}
    (hv : ∀ name : Bytes, r₁.assigned[name]? ≠ some v) : r₂.assigned[v]? = none := by
  cases hnone : r₂.assigned[v]? with
  | none => rfl
  | some short =>
    obtain ⟨rfl, other, hother⟩ := h.assigned_iff.1 hnone
    exact absurd hother (hv other)

/-- Giving a short name to a name and to itself keeps two renamings in step. -/
lemma Mirrors.assign (h : Mirrors r₁ r₂) (hd : r₁.Distinct n) (hn : n < 2 ^ 32) {name : Bytes}
    (hnone : r₁.assigned[name]? = none) :
    Mirrors (r₁.assign name) (r₂.assign (nameAt r₁.nextPlace)) := by
  have hnew := hd.getElem?_ne_nextPlace hn
  refine ⟨h.ptr64_eq, ?_, ?_⟩
  · change r₂.nextPlace + 1 = r₁.nextPlace + 1
    rw [h.nextPlace_eq]
  · intro v short
    constructor
    · intro hv
      rcases eq_or_of_getElem?_assign hv with ⟨rfl, rfl⟩ | hold
      · rw [h.nextPlace_eq]
        exact ⟨rfl, name, by simp⟩
      · obtain ⟨rfl, other, hother⟩ := h.assigned_iff.1 hold
        have hne : name ≠ other := by
          rintro rfl
          rw [hnone] at hother
          simp at hother
        exact ⟨rfl, other, by simp [hne, hother]⟩
    · rintro ⟨rfl, other, hother⟩
      rw [getElem?_assign, h.nextPlace_eq]
      rcases eq_or_of_getElem?_assign hother with ⟨-, rfl⟩ | hold
      · simp
      · have hne : nameAt r₁.nextPlace ≠ v := by
          rintro rfl
          exact hnew other hold
        rw [if_neg hne]
        exact h.assigned_iff.2 ⟨rfl, other, hold⟩

/-- The spelling of a name with a fixed meaning has itself as its spelling, or it is an integer
type. -/
lemma fixedSpelling_fixedSpelling (ptr64 : Bool) {name : Bytes} (h : name ∈ fixedNames) :
    fixedSpelling ptr64 name ∈ fixedNames ∧
        fixedSpelling ptr64 (fixedSpelling ptr64 name) = fixedSpelling ptr64 name ∨
      fixedSpelling ptr64 name ∉ fixedNames ∧ isSizedInt (fixedSpelling ptr64 name) = true := by
  rcases fixedSpelling_cases ptr64 name with heq | ⟨-, halias⟩
  · left
    rw [heq]
    exact ⟨h, heq⟩
  · obtain ⟨-, -, hnot, hsized, -⟩ := pointerAliases_spec _ halias
    exact .inr ⟨hnot, hsized⟩

/-- The spelling that a name gets is kept by a renaming in step, and the two stay in step. -/
lemma Mirrors.rename (h : Mirrors r₁ r₂) (hp : r₁.Proper) (hd : r₁.Distinct n) (hn : n < 2 ^ 32)
    (name : Bytes) :
    ∃ r₂', r₂.rename (r₁.rename name).1 = ((r₁.rename name).1, r₂') ∧
      Mirrors (r₁.rename name).2 r₂' := by
  -- an integer type has no short name and is one of none
  have hsizedName : ∀ {v : Bytes}, v ∉ fixedNames → isSizedInt v = true →
      r₂.rename v = (v, r₂) := by
    intro v hfixed hsized
    refine rename_of_sized hfixed (h.getElem?_eq_none fun other hother => ?_) hsized
    rw [(hp.short_spec hother).2] at hsized
    simp at hsized
  rcases r₁.rename_cases name with ⟨hfixed, hr⟩ | ⟨-, short, hshort, hr⟩ | ⟨hfixed, -, hsized, hr⟩ |
    ⟨-, hnone, -, hr⟩
  · rw [hr]
    refine ⟨r₂, ?_, h⟩
    rcases fixedSpelling_fixedSpelling r₁.ptr64 hfixed with ⟨hmem, heq⟩ | ⟨hnot, hsized⟩
    · rw [rename_of_fixed hmem, h.ptr64_eq, heq]
    · exact hsizedName hnot hsized
  · rw [hr]
    refine ⟨r₂, rename_of_assigned ?_ (h.assigned_iff.2 ⟨rfl, name, hshort⟩), h⟩
    exact fun hmem => (hp hshort).notMem_takenNames (fixedNames_subset _ hmem)
  · rw [hr]
    exact ⟨r₂, hsizedName hfixed hsized, h⟩
  · rw [hr]
    refine ⟨r₂.assign (nameAt r₁.nextPlace), ?_, h.assign hd hn hnone⟩
    have hfixed : nameAt r₁.nextPlace ∉ fixedNames :=
      fun hmem => r₁.nextPlace_spec.2 (fixedNames_subset _ hmem)
    have hnew := h.getElem?_eq_none (hd.getElem?_ne_nextPlace hn)
    rw [rename_of_new hfixed hnew (isSizedInt_nameAt _), h.nextPlace_eq]

end Renaming

/-! ### Two runs in step -/

/-- What was written for a token is written again for what was written. -/
lemma Renaming.Mirrors.spell {r₁ r₂ : Renaming} {n : Nat} (h : r₁.Mirrors r₂) (hp : r₁.Proper)
    (hd : r₁.Distinct n) (hn : n < 2 ^ 32) (m : Minifier) {t t' : Token}
    (hkind : t'.kind = (m.spell r₁ t).1.1) (htext : t'.lexeme = (m.spell r₁ t).1.2) :
    ∃ r₂', m.spell r₂ t' = ((m.spell r₁ t).1, r₂') ∧ (m.spell r₁ t).2.Mirrors r₂' := by
  rcases spell_cases m r₁ t with ⟨-, hlast, hspell⟩ | ⟨code, -, -, hspell⟩ |
    ⟨hperiod, hchar, hspell⟩
  · rw [hspell] at hkind htext ⊢
    obtain ⟨r₂', hrename, hmirrors⟩ := h.rename hp hd hn (r₁.key t.lexeme)
    refine ⟨r₂', ?_, hmirrors⟩
    have hkey : r₂.key t'.lexeme = (r₁.renameIdentifier t.lexeme).1 := by
      rw [htext]
      exact key_of_isPlainName (hp.isPlainName_rename (r₁.key t.lexeme)).1
    have hagain : r₂.renameIdentifier t'.lexeme = ((r₁.renameIdentifier t.lexeme).1, r₂') := by
      rw [renameIdentifier, hkey]
      exact hrename
    rw [spell_of_binding r₂ hkind hlast, hagain]
  · rw [hspell] at hkind htext ⊢
    exact ⟨r₂, by rw [Minifier.spell, hkind, htext], h⟩
  · rw [hspell] at hkind htext ⊢
    dsimp only at hkind htext ⊢
    rw [← hkind] at hperiod hchar
    refine ⟨r₂, ?_, h⟩
    rw [spell_of_other r₂ hperiod (by rwa [htext]), hkind, htext]

/-- A run over what another run has written writes the same. -/
lemma thread_write_again {r₁ r₂ : Renaming} {n : Nat} (h : r₁.Mirrors r₂) (hp : r₁.Proper)
    (hd : r₁.Distinct n) (m : Minifier) {ts ts' : List Token} (hn : n + ts.length ≤ 2 ^ 32)
    (hts : ts'.map (fun t => (t.kind, t.lexeme)) =
      (thread Minifier.write (m, r₁) ts).1.map fun p => (p.kind, p.text)) :
    (thread Minifier.write (m, r₂) ts').1 = (thread Minifier.write (m, r₁) ts).1 := by
  induction ts generalizing r₁ r₂ n m ts' with
  | nil =>
    rw [thread_nil, List.map_nil, List.map_eq_nil_iff] at hts
    rw [hts]
    rfl
  | cons t ts ih =>
    rw [List.length_cons] at hn
    rw [thread_cons, List.map_cons] at hts
    obtain ⟨t', ts', rfl, hfirst, hrest⟩ := List.map_eq_cons_iff.1 hts
    obtain ⟨hkind, htext⟩ := Prod.mk.inj hfirst
    obtain ⟨r₂', hspell, hmirrors⟩ := h.spell hp hd (by omega) m hkind htext
    have hwrite : Minifier.write (m, r₂) t' =
        ((Minifier.write (m, r₁) t).1, ((Minifier.write (m, r₁) t).2.1, r₂')) := by
      simp only [Minifier.write, hspell]
    have hagain := ih hmirrors (proper_spell m hp t) (distinct_spell m hd (by omega) t)
      (Minifier.write (m, r₁) t).2.1 (by omega) hrest
    rw [thread_cons, thread_cons, hwrite]
    exact List.cons_eq_cons.2 ⟨rfl, hagain⟩

/-! ### Result -/

/-- The tokens of what was written without a gluing spot are what was written. -/
lemma keptTokens_join {last : Kind} {lastQuoted : Bool} {ps : List Piece}
    (h : Laid last lastQuoted ps) (hglue : hasGluingSpot ps = false) (file : UInt32) :
    (∀ t ∈ tokensOfText file (Piece.join ps), t.kind ≠ .invalid) ∧
      (keptTokens file (Piece.join ps)).map (fun t => (t.kind, t.lexeme)) =
        ps.map fun p => (p.kind, p.text) := by
  have hmap := map_tokensOfText file (Piece.join ps)
  rw [h.lexemes_join hglue, List.map_map] at hmap
  have hpiece : ∀ t ∈ tokensOfText file (Piece.join ps), ∃ p ∈ ps, p.kind = t.kind := by
    intro t ht
    have hmem : (t.kind, t.lexeme) ∈ ps.map ((fun l => (l.kind, l.text)) ∘ Piece.lexeme) := by
      rw [← hmap]
      exact List.mem_map_of_mem ht
    obtain ⟨p, hp, heq⟩ := List.mem_map.1 hmem
    exact ⟨p, hp, (Prod.mk.inj heq).1⟩
  constructor
  · intro t ht
    obtain ⟨p, hp, hkind⟩ := hpiece t ht
    rw [← hkind]
    exact (h.isToken p hp).reads.kind_ne_invalid
  · have hall : ∀ t ∈ tokensOfText file (Piece.join ps), (!t.kind.isDocComment) = true := by
      intro t ht
      obtain ⟨p, hp, hkind⟩ := hpiece t ht
      rw [← hkind, (h.isToken p hp).isDocComment_eq_false]
      rfl
    rw [keptTokens_eq h.wellFormed_join, List.filter_eq_self.2 hall]
    exact hmap

/-- What is written without a gluing spot is accepted when it is minified again, the same text is
written, and nothing is reported. -/
theorem minify_output {ptr64 : Bool} {file : UInt32} {source output : Bytes} {E : List Piece}
    (h : (minifyRun ptr64 file source).pieces = some E)
    (houtput : (minify ptr64 file source).1 = some output) (hlength : source.length < 2 ^ 32)
    (hglue : hasGluingSpot E = false) (file' : UInt32) :
    minify ptr64 file' output = (some output, []) := by
  obtain ⟨hlaid, -⟩ := laid_of_minifyRun h
  obtain ⟨hs, -, hE⟩ := minifyRun_eq_some_iff.1 h
  obtain rfl := join_eq_output h houtput
  obtain ⟨hvalid, htokens⟩ := keptTokens_join hlaid hglue file'
  obtain ⟨hpieces, hlog⟩ :=
    @minifyRun_of_valid ptr64 file' (Piece.join E) hlaid.wellFormed_join hvalid
  have hkept := length_keptTokens_le file hs
  have hagain :
      (thread Minifier.write ({}, { ptr64 }) (keptTokens file' (Piece.join E))).1 = E := by
    conv at htokens => rhs; rw [hE]
    refine (thread_write_again (Renaming.mirrors_empty ptr64) (Renaming.proper_empty ptr64)
      (Renaming.distinct_empty ptr64) {} ?_ htokens).trans hE.symm
    omega
  rw [minify, hpieces, hlog, hagain]
  rfl

/-- On a 64-bit target the second run meets the type that the first one has written. -/
theorem minify_output_of_alias :
    minify true 0 (ascii "fn a(b:i64)a.len") = (some (ascii "fn a(b:i64)a.len"), []) := by
  have hpieces : (minifyRun true 0 (ascii "fn f (x : isize) @\"f\" . len")).pieces =
      some [⟨false, .keyword ⟨ascii "fn", by decide⟩, ascii "fn"⟩, ⟨true, .ident, ascii "a"⟩,
        ⟨false, .punct .openParen, ascii "("⟩, ⟨false, .ident, ascii "b"⟩,
        ⟨false, .punct .colon, ascii ":"⟩, ⟨false, .ident, ascii "i64"⟩,
        ⟨false, .punct .closeParen, ascii ")"⟩, ⟨false, .ident, ascii "a"⟩,
        ⟨false, .punct .period, ascii "."⟩, ⟨false, .ident, ascii "len"⟩] := by
    decide +kernel
  refine minify_output hpieces ?_ (by decide) (by decide) 0
  rw [minify, hpieces]
  decide

end ZigGolf
