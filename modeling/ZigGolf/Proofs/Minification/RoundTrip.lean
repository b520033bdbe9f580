import ZigGolf.Proofs.Minification.Run

/-!
# Lexing the output

The output of a run is lexed again.  The tokens that are found are the pieces that were written,
each where it was written, if and only if the pieces have no gluing spot, and the same condition
decides whether at least the kinds of the tokens are those of the source.
-/

namespace ZigGolf

variable {ptr64 : Bool} {file : UInt32} {source : Bytes} {E : List Piece}

/-! ### Places in a text -/

/-- The places of pieces that are written one after the other, the first at a given offset. -/
def Piece.placements (offset : Nat) : List Piece → List Placement
  | [] => []
  | p :: ps =>
    let lo := offset + if p.spaced then 1 else 0
    let hi := lo + p.text.length
    ⟨p.kind, p.text, lo, hi⟩ :: Piece.placements hi ps

/-- The place of a piece holds the text of the piece. -/
lemma slice_placements (before : Bytes) (ps : List Piece) :
    ∀ q ∈ Piece.placements before.length ps,
      slice (before ++ Piece.join ps) q.lo q.hi = q.text := by
  induction ps generalizing before with
  | nil => simp [Piece.placements]
  | cons p ps ih =>
    have hbytes : ∃ gap, p.bytes = gap ++ p.text ∧ gap.length = if p.spaced then 1 else 0 := by
      cases hs : p.spaced with
      | true => exact ⟨[space], by simp [Piece.bytes, hs], by simp⟩
      | false => exact ⟨[], by simp [Piece.bytes, hs], by simp⟩
    obtain ⟨gap, hgap, hlength⟩ := hbytes
    intro q hq
    rw [Piece.placements, ← hlength] at hq
    rcases List.mem_cons.1 hq with rfl | hq
    · have hlo : (before ++ gap).length = before.length + gap.length := List.length_append
      dsimp only [slice]
      rw [Piece.join_cons, hgap, List.append_assoc, ← List.append_assoc before, ← hlo,
        List.drop_left, Nat.add_sub_cancel_left, List.take_left]
    · have hrest := ih (before ++ p.bytes) q
      rw [hgap, List.length_append, List.length_append, ← Nat.add_assoc, ← hgap,
        List.append_assoc] at hrest
      rw [Piece.join_cons]
      exact hrest hq

/-- The pieces of a short text are placed as lexemes where they are placed as pieces. -/
lemma map_placement_thread (file : UInt32) (offset : Nat) (ps : List Piece)
    (h : offset + (Piece.join ps).length < 2 ^ 32) :
    (thread (Lexeme.place file) offset (ps.map Piece.lexeme)).1.map Token.placement =
      Piece.placements offset ps := by
  induction ps generalizing offset with
  | nil => rfl
  | cons p ps ih =>
    have hlength : p.bytes.length = (if p.spaced then 1 else 0) + p.text.length := by
      cases hs : p.spaced with
      | true => simp [Piece.bytes, hs, Nat.add_comm]
      | false => simp [Piece.bytes, hs]
    have hgap : p.lexeme.gap.length = if p.spaced then 1 else 0 := by
      cases hs : p.spaced <;> simp [Piece.lexeme, hs]
    rw [Piece.join_cons, List.length_append, hlength] at h
    have hshort : offset + p.lexeme.gap.length + p.lexeme.text.length < 2 ^ 32 := by
      change offset + p.lexeme.gap.length + p.text.length < 2 ^ 32
      omega
    have hplace := placement_place file hshort
    have hend : (Lexeme.place file offset p.lexeme).2 =
        offset + p.lexeme.gap.length + p.text.length := rfl
    rw [hgap] at hplace hend
    rw [List.map_cons, thread_cons, List.map_cons, hend]
    exact List.cons_eq_cons.2 ⟨hplace, ih _ (by omega)⟩

/-! ### Kinds -/

/-- The kinds of the tokens of a text in UTF-8 are those of its lexemes, and the end. -/
lemma map_kind_lex {s : Bytes} (hs : Utf8.WellFormed s) :
    (lex file s).map Token.kind = lexemeKinds s ++ [.eof] := by
  have hmap := congrArg (List.map Prod.fst) (map_tokensOfText file s)
  rw [List.map_map, List.map_map] at hmap
  rw [lex_of_wellFormed hs, List.map_append]
  exact congrArg (· ++ [.eof]) hmap

/-- The kinds of what was written are read back if and only if there is no gluing spot. -/
lemma Laid.lexemeKinds_join_eq_iff {last : Kind} {lastQuoted : Bool} {ps : List Piece}
    (h : Laid last lastQuoted ps) :
    lexemeKinds (Piece.join ps) = ps.map Piece.kind ↔ hasGluingSpot ps = false := by
  refine ⟨h.hasGluingSpot_eq_false, fun hglue => ?_⟩
  rw [lexemeKinds, h.lexemes_join hglue, List.map_map]
  rfl

/-- The kinds of the pieces, which end with the output, as the kinds of a list of places. -/
lemma map_kind_placements (offset : Nat) (ps : List Piece) :
    (Piece.placements offset ps).map Placement.kind = ps.map Piece.kind := by
  induction ps generalizing offset with
  | nil => rfl
  | cons p ps ih => rw [Piece.placements, List.map_cons, List.map_cons, ih]

/-! ### Results -/

/-- The output of a run is lexed as the pieces that were written, each at the place where it was
written, if and only if the pieces have no gluing spot. -/
theorem lex_output_iff (h : (minifyRun ptr64 file source).pieces = some E) {output : Bytes}
    (houtput : (minify ptr64 file source).1 = some output) (hlength : output.length < 2 ^ 32)
    (file' : UInt32) :
    ((lex file' output).map Token.placement =
        Piece.placements 0 E ++ [⟨.eof, [], output.length, output.length⟩] ↔
      hasGluingSpot E = false) ∧
      ∀ q ∈ Piece.placements 0 E, slice output q.lo q.hi = q.text := by
  obtain ⟨hlaid, -⟩ := laid_of_minifyRun h
  obtain rfl := join_eq_output h houtput
  have hutf8 := hlaid.wellFormed_join
  refine ⟨⟨fun heq => ?_, fun hglue => ?_⟩, slice_placements [] E⟩
  · have hkinds := congrArg (List.map Placement.kind) heq
    rw [List.map_map, List.map_append, map_kind_placements] at hkinds
    have hlex : (lex file' (Piece.join E)).map (Placement.kind ∘ Token.placement) =
        lexemeKinds (Piece.join E) ++ [.eof] := map_kind_lex hutf8
    rw [hlex] at hkinds
    exact hlaid.lexemeKinds_join_eq_iff.1 (List.append_cancel_right hkinds)
  · have hend : (Token.atEnd file' (Piece.join E).length).placement =
        ⟨.eof, [], (Piece.join E).length, (Piece.join E).length⟩ := by
      dsimp only [Token.placement, Token.atEnd]
      rw [UInt32.toNat_ofNat', Nat.mod_eq_of_lt hlength]
    rw [lex_of_wellFormed hutf8, List.map_append, List.map_singleton, hend, tokensOfText,
      hlaid.lexemes_join hglue, map_placement_thread file' 0 E (by omega)]

/-- The number and the period in `x + 1 . y` are read back, since no digit stands behind them. -/
theorem lex_output_of_member :
    (lex 0 (ascii "a+1.y")).map Token.placement =
      [⟨.ident, ascii "a", 0, 1⟩, ⟨.punct .plus, ascii "+", 1, 2⟩, ⟨.intLit, ascii "1", 2, 3⟩,
        ⟨.punct .period, ascii ".", 3, 4⟩, ⟨.ident, ascii "y", 4, 5⟩, ⟨.eof, [], 5, 5⟩] := by
  have hpieces : (minifyRun false 0 (ascii "x + 1 . y")).pieces =
      some [⟨false, .ident, ascii "a"⟩, ⟨false, .punct .plus, ascii "+"⟩,
        ⟨false, .intLit, ascii "1"⟩, ⟨false, .punct .period, ascii "."⟩,
        ⟨false, .ident, ascii "y"⟩] := by decide +kernel
  have houtput : (minify false 0 (ascii "x + 1 . y")).1 = some (ascii "a+1.y") := by
    rw [minify, hpieces]
    decide
  exact (lex_output_iff hpieces houtput (by decide) 0).1.2 (by decide)

/-- The kinds of the tokens of the output are those of the source, doc comments left out and
character literals that are written as numbers taken for integers, if and only if what was written
has no gluing spot. -/
theorem lex_output_kinds_iff (h : (minifyRun ptr64 file source).pieces = some E) {output : Bytes}
    (houtput : (minify ptr64 file source).1 = some output) (file' : UInt32) :
    (lex file' output).map Token.kind =
        ((lex file source).filter fun t => !t.kind.isDocComment).map Token.writtenKind ↔
      hasGluingSpot E = false := by
  obtain ⟨hlaid, hkinds⟩ := laid_of_minifyRun h
  obtain rfl := join_eq_output h houtput
  have hsource : ((lex file source).filter fun t => !t.kind.isDocComment).map Token.writtenKind =
      E.map Piece.kind ++ [.eof] := by
    have hs := (valid_of_minifyRun h).1
    rw [lex_of_wellFormed hs, List.filter_append, List.map_append, hkinds, keptTokens_eq hs]
    rfl
  rw [map_kind_lex hlaid.wellFormed_join, hsource, List.append_left_inj]
  exact hlaid.lexemeKinds_join_eq_iff

/-- A comment behind the slash in `x / y` is left out, and the kinds stay. -/
theorem lex_output_kinds_of_comment :
    (lex 0 (ascii "a/b")).map Token.kind = [.ident, .punct .slash, .ident, .eof] := by
  obtain ⟨hpieces, hsource⟩ : (minifyRun false 0 (ascii "x / // twice\n y")).pieces =
        some [⟨false, .ident, ascii "a"⟩, ⟨false, .punct .slash, ascii "/"⟩,
          ⟨false, .ident, ascii "b"⟩] ∧
      ((lex 0 (ascii "x / // twice\n y")).filter fun t => !t.kind.isDocComment).map
        Token.writtenKind = [.ident, .punct .slash, .ident, .eof] := by
    decide +kernel
  have houtput : (minify false 0 (ascii "x / // twice\n y")).1 = some (ascii "a/b") := by
    rw [minify, hpieces]
    decide
  rw [← hsource]
  exact (lex_output_kinds_iff hpieces houtput 0).2 (by decide)

/-- A pointer to a pointer, written with a space between the stars, loses it: the two stars are read
back as one operator. -/
theorem lex_output_kinds_ne_of_stars :
    (minify false 0 (ascii "const p: * *u8 = q;")).1 = some (ascii "const a:**u8=b;") ∧
      (lex 0 (ascii "const a:**u8=b;")).map Token.kind ≠
        ((lex 0 (ascii "const p: * *u8 = q;")).filter fun t => !t.kind.isDocComment).map
          Token.writtenKind := by
  decide +kernel

end ZigGolf
