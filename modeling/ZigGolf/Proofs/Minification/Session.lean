import ZigGolf.Minification.Session
import ZigGolf.Proofs.Lexing.Line
import ZigGolf.Proofs.Minification.Formatting

/-!
# Sources in turn

A session that is fed with sources in turn writes what is written for all of them at once, joined by
line feeds (`session_output`).  No token takes anything from the next line, so what is kept of the
joined text is what is kept of the sources, one after the other; and all that a minifier goes by
from one token to the next is what it carries over from one run to the next. -/

namespace ZigGolf

/-! ### Words of sources in turn -/

lemma words_joined {a : Bytes} (ha : Utf8.WellFormed a) (hend : LinesEnded a) (c : Bytes) :
    words (a ++ lineFeed :: c) = words a ++ words c := by
  have hpairs := congrArg (List.map fun t => (t.kind, t.lexeme)) (thread_place_joined 0 0 ha hend c)
  rw [List.map_append, map_thread_place, map_thread_place, map_thread_place] at hpairs
  rw [words_eq_filter, hpairs, List.filter_append, words_eq_filter a, words_eq_filter c]

/-- What is kept of sources joined by line feeds is what is kept of each of them. -/
lemma words_intercalate {ss : List Bytes} (h : ∀ s ∈ ss, Utf8.WellFormed s ∧ LinesEnded s) :
    Utf8.WellFormed ([lineFeed].intercalate ss) ∧
      words ([lineFeed].intercalate ss) = ss.flatMap words := by
  induction ss with
  | nil => exact ⟨Utf8.wellFormed_nil, by simp [words]⟩
  | cons s ss ih =>
    obtain ⟨hs, hend⟩ := h s List.mem_cons_self
    obtain ⟨hrest, hwords⟩ := ih fun s' hs' => h s' (List.mem_cons_of_mem s hs')
    cases ss with
    | nil => simpa using hs
    | cons s' ss =>
      have hjoin : [lineFeed].intercalate (s :: s' :: ss) =
          s ++ lineFeed :: [lineFeed].intercalate (s' :: ss) := by simp
      rw [hjoin, words_joined hs hend, hwords, List.flatMap_cons]
      exact ⟨(Utf8.wellFormed_append_cons_iff (by decide)).2 ⟨hs, hrest⟩, rfl⟩

/-- What is written for sources joined by line feeds is what is written for all that is kept of
them, one after the other. -/
lemma minify_intercalate (ptr64 : Bool) (file : UInt32) {sources : List (UInt32 × Bytes)}
    (hvalid : ∀ p ∈ sources, ∀ t ∈ lex p.1 p.2, t.kind ≠ .invalid)
    (hend : ∀ p ∈ sources, LinesEnded p.2) :
    (minify ptr64 file ([lineFeed].intercalate (sources.map (·.2)))).1 =
      some (Piece.join (thread Minifier.write ({}, { ptr64 })
        (sources.flatMap fun p => keptTokens p.1 p.2)).1) := by
  have hlines : ∀ s ∈ sources.map (·.2), Utf8.WellFormed s ∧ LinesEnded s := by
    rw [List.forall_mem_map]
    exact fun p hp => ⟨(valid_of_lex (hvalid p hp)).1, hend p hp⟩
  obtain ⟨hs, hwords⟩ := words_intercalate hlines
  have hjoined : ∀ t ∈ tokensOfText file ([lineFeed].intercalate (sources.map (·.2))),
      t.kind ≠ .invalid := by
    rw [forall_tokensOfText_iff file (P := fun q => q.1 ≠ .invalid), ← forall_words_ne_invalid_iff,
      hwords, List.flatMap_map]
    intro q hq
    obtain ⟨p, hp, hq⟩ := List.mem_flatMap.1 hq
    have htokens := (valid_of_lex (hvalid p hp)).2
    rw [forall_tokensOfText_iff p.1 (P := fun q => q.1 ≠ .invalid),
      ← forall_words_ne_invalid_iff] at htokens
    exact htokens q hq
  have htokens : (keptTokens file ([lineFeed].intercalate (sources.map (·.2)))).map
        (fun t => (t.kind, t.lexeme)) =
      (sources.flatMap fun p => keptTokens p.1 p.2).map fun t => (t.kind, t.lexeme) := by
    rw [map_keptTokens file hs, hwords, List.flatMap_map, List.map_flatMap]
    exact List.flatMap_congr fun p hp =>
      (map_keptTokens p.1 (valid_of_lex (hvalid p hp)).1).symm
  rw [minify, (minifyRun_of_valid hs hjoined).1, thread_write_congr _ htokens]
  rfl

/-! ### Runs of a session -/

/-- That a run has ended is not looked at. -/
lemma thread_write_finished (m : Minifier) (names : Renaming) (b : Bool) (ts : List Token) :
    (thread Minifier.write ({ m with finished := b }, names) ts).1 =
      (thread Minifier.write (m, names) ts).1 := by
  induction ts generalizing m names with
  | nil => rfl
  | cons t ts ih =>
    have hrest := ih (Minifier.write (m, names) t).2.1 (Minifier.write (m, names) t).2.2
    rw [thread_cons, thread_cons]
    exact congrArg ((Minifier.write (m, names) t).1 :: ·) hrest

namespace Session

variable (session : Session)

/-- A run that meets valid tokens only goes through, and appends what is written for them. -/
lemma run_of_valid {lexer : Lexer} (hvalid : ∀ t ∈ lexer.readAll.1, t.kind ≠ .invalid) :
    (session.run lexer).1.1 = true ∧
      (session.run lexer).2.output = session.output ++ Piece.join
        (Minifier.writeAll (session.minifier, session.names) lexer.readAll.1.dropLast).1 := by
  rw [← lexer.fst_readAll_attach session.log] at hvalid ⊢
  obtain ⟨hrun, -⟩ := Minifier.run_of_valid session.minifier session.names hvalid
  simp only [run, hrun, and_self]

/-- A run that meets an invalid token is given up, and appends nothing. -/
lemma run_of_invalid {lexer : Lexer} {t : Token} (ht : t ∈ lexer.readAll.1)
    (hkind : t.kind = .invalid) :
    (session.run lexer).1.1 = false ∧ (session.run lexer).2.output = session.output := by
  rw [← lexer.fst_readAll_attach session.log] at ht
  cases hpieces : (session.minifier.run session.names (lexer.attach session.log)).pieces with
  | some E => exact absurd hkind (Minifier.valid_of_run _ _ hpieces t ht)
  | none => simp only [run, hpieces, and_self]

/-- A source of valid tokens goes through: what is kept of it is written, and nothing is
reported. -/
lemma feed_of_valid {p : UInt32 × Bytes} (hvalid : ∀ t ∈ lex p.1 p.2, t.kind ≠ .invalid) :
    let written := thread Minifier.write (session.minifier, session.names) (keptTokens p.1 p.2)
    session.feed p = (true, ⟨{ written.2.1 with finished := true }, written.2.2,
      session.output ++ Piece.join written.1, session.log⟩) := by
  obtain ⟨hrun, hlog⟩ := Minifier.run_ofSource_of_valid session.minifier session.names
    (some session.log) hvalid
  have hattach : (Lexer.ofSource p.1 p.2 none).attach session.log =
      .ofSource p.1 p.2 (some session.log) := rfl
  simp only [feed, run, hattach, hrun, hlog, Option.getD_some]

/-- Sources of valid tokens all go through, and what is appended is what is written for what is kept
of them, one after the other. -/
lemma thread_feed {sources : List (UInt32 × Bytes)}
    (hvalid : ∀ p ∈ sources, ∀ t ∈ lex p.1 p.2, t.kind ≠ .invalid) :
    (∀ ok ∈ (thread feed session sources).1, ok = true) ∧
      (thread feed session sources).2.output = session.output ++ Piece.join
        (thread Minifier.write (session.minifier, session.names)
          (sources.flatMap fun p => keptTokens p.1 p.2)).1 := by
  induction sources generalizing session with
  | nil => simp
  | cons p sources ih =>
    have hfeed := session.feed_of_valid (hvalid p List.mem_cons_self)
    obtain ⟨hall, hrest⟩ := ih (session.feed p).2
      fun q hq => hvalid q (List.mem_cons_of_mem p hq)
    rw [thread_cons]
    constructor
    · exact List.forall_mem_cons.2 ⟨by rw [hfeed], hall⟩
    · dsimp only
      rw [hrest, List.flatMap_cons, thread_append, Piece.join_append, ← List.append_assoc]
      simp only [hfeed, thread_write_finished]

end Session

/-! ### Result -/

/-- Fed with sources of valid tokens in turn, none of which breaks off within a line of a multiline
string, a fresh session goes through all of them and writes what is written for the sources joined
by line feeds.  And whatever a session holds and whatever it runs over, a run goes through if and
only if it meets no invalid token.  A run that is given up leaves the text of the session as it is,
and one that goes through appends what is written for what its lexer has left. -/
theorem session_output (ptr64 : Bool) :
    (∀ (file : UInt32) (sources : List (UInt32 × Bytes)),
      (∀ p ∈ sources, ∀ t ∈ lex p.1 p.2, t.kind ≠ .invalid) →
      (∀ p ∈ sources, ∀ t ∈ (lex p.1 p.2).dropLast.getLast?, t.kind = .multilineStringLine →
        t.lexeme.getLast? = some lineFeed) →
      (∀ ok ∈ (thread Session.feed { names := { ptr64 } } sources).1, ok = true) ∧
        (minify ptr64 file ([lineFeed].intercalate (sources.map (·.2)))).1 =
          some (thread Session.feed { names := { ptr64 } } sources).2.output) ∧
    ∀ (session : Session) (lexer : Lexer),
      ((session.run lexer).1.1 = true ↔ ∀ t ∈ lexer.readAll.1, t.kind ≠ .invalid) ∧
        ((session.run lexer).1.1 = false → (session.run lexer).2.output = session.output) ∧
        ((session.run lexer).1.1 = true →
          (session.run lexer).2.output = session.output ++ Piece.join
            (Minifier.writeAll (session.minifier, session.names)
              lexer.readAll.1.dropLast).1) := by
  constructor
  · intro file sources hvalid hend
    obtain ⟨hall, houtput⟩ := Session.thread_feed { names := { ptr64 } } hvalid
    refine ⟨hall, ?_⟩
    have hlines : ∀ p ∈ sources, LinesEnded p.2 := by
      intro p hp
      have hlast := hend p hp
      rw [lex_of_wellFormed (valid_of_lex (hvalid p hp)).1, List.dropLast_concat] at hlast
      exact (linesEnded_iff p.1 p.2).2 hlast
    rw [minify_intercalate ptr64 file hvalid hlines, houtput]
    rfl
  · intro session lexer
    by_cases hvalid : ∀ t ∈ lexer.readAll.1, t.kind ≠ .invalid
    · obtain ⟨hok, happend⟩ := session.run_of_valid hvalid
      rw [hok]
      exact ⟨⟨fun _ => hvalid, fun _ => rfl⟩, by simp, fun _ => happend⟩
    · push Not at hvalid
      obtain ⟨t, ht, hkind⟩ := hvalid
      obtain ⟨hok, hsame⟩ := session.run_of_invalid ht hkind
      rw [hok]
      exact ⟨⟨by simp, fun h => absurd hkind (h t ht)⟩, fun _ => hsame, by simp⟩

/-- The period at the end of the first source keeps the name in the second, the third name is kept
apart from it, and a run that is given up at its last token changes nothing of the text. -/
theorem session_output_of_three :
    (thread Session.feed { names := { ptr64 := false } }
        [(1, ascii "x ."), (2, ascii "x //"), (3, ascii "x")]).2.output = ascii "a.x a" ∧
      (Session.run { names := { ptr64 := false }, output := ascii "a.x a" }
        (.ofSource 4 (ascii "y\"") none)).2.output = ascii "a.x a" := by
  obtain ⟨hvalid, hend, hbatch, hgiven⟩ :
      (∀ p ∈ [((1 : UInt32), ascii "x ."), (2, ascii "x //"), (3, ascii "x")],
          ∀ t ∈ lex p.1 p.2, t.kind ≠ .invalid) ∧
        (∀ p ∈ [((1 : UInt32), ascii "x ."), (2, ascii "x //"), (3, ascii "x")],
          ∀ t ∈ (lex p.1 p.2).dropLast.getLast?, t.kind = .multilineStringLine →
            t.lexeme.getLast? = some lineFeed) ∧
        (minify false 0 ([lineFeed].intercalate
          ([((1 : UInt32), ascii "x ."), (2, ascii "x //"), (3, ascii "x")].map (·.2)))).1 =
            some (ascii "a.x a") ∧
        (Session.run { names := { ptr64 := false }, output := ascii "a.x a" }
          (.ofSource 4 (ascii "y\"") none)).1.1 = false := by
    decide +kernel
  obtain ⟨hbatches, hruns⟩ := session_output false
  obtain ⟨-, houtput⟩ := hbatches 0 _ hvalid hend
  exact ⟨Option.some.inj (houtput.symm.trans hbatch), (hruns _ _).2.1 hgiven⟩

end ZigGolf
