import ZigGolf.Minification.Minifier
import ZigGolf.Proofs.Lexing.Tokens

/-!
# Runs token by token

A minifier reads a token, takes it, and goes on until the lexer gives the end.  A valid token is
written unless it is a doc comment, and an invalid one is reported and ends the run
(`step_of_valid`, `step_of_invalid`).  By induction on what is read, a run without invalid tokens
writes all that its lexer reads (`run_of_valid`), and any other run ends at the first invalid token,
with nothing written and one more report (`run_of_first_invalid`). -/

namespace ZigGolf

/-! ### The first invalid token -/

/-- If there is an invalid token there is a first one. -/
lemma exists_find?_invalid {ts : List Token} {t : Token} (ht : t ∈ ts) (hkind : t.kind = .invalid) :
    ∃ first, ts.find? (fun t => t.kind == .invalid) = some first :=
  Option.isSome_iff_exists.1 (List.find?_isSome.2 ⟨t, ht, beq_iff_eq.2 hkind⟩)

/-- In front of the first invalid token all are valid. -/
lemma split_of_find? {ts : List Token} {t : Token}
    (h : ts.find? (fun t => t.kind == .invalid) = some t) :
    ∃ before after, ts = before ++ t :: after ∧ (∀ u ∈ before, u.kind ≠ .invalid) ∧
      t.kind = .invalid := by
  obtain ⟨hkind, before, after, hsplit, hbefore⟩ := List.find?_eq_some_iff_append.1 h
  refine ⟨before, after, hsplit, fun u hu => ?_, beq_iff_eq.1 hkind⟩
  simpa using hbefore u hu

namespace Minifier

/-- What is written for some tokens in turn: all of them but doc comments. -/
def writeAll (state : Minifier × Renaming) (ts : List Token) :
    List Piece × (Minifier × Renaming) :=
  thread write state (ts.filter fun t => !t.kind.isDocComment)

/-- A draft to which some tokens have been written. -/
def Draft.written (draft : Draft) (ts : List Token) : Draft :=
  let result := writeAll (draft.minifier, draft.names) ts
  { draft with
    minifier := result.2.1
    names := result.2.2
    pieces := draft.pieces ++ result.1 }

variable {draft : Draft} {t : Token}

/-! ### One token -/

/-- An invalid token is reported as the reason to give up. -/
lemma step_of_invalid (draft : Draft) (h : t.kind = .invalid) :
    step draft t =
      (false, { draft with lexer := draft.lexer.report (.invalidSource t.span) }) := if_pos h

/-- A valid token is written, and nothing is reported. -/
lemma step_of_valid (draft : Draft) (h : t.kind ≠ .invalid) :
    step draft t = (true, draft.written [t]) := by
  unfold step Draft.written writeAll
  rw [if_neg h]
  cases hdoc : t.kind.isDocComment with
  | true => simp [hdoc]
  | false => simp [hdoc, write]

/-- Without a token a draft stays as it is. -/
lemma Draft.written_nil (draft : Draft) : draft.written [] = draft := by
  simp [written, writeAll]

/-- Tokens can be written one after the other. -/
lemma Draft.written_cons (draft : Draft) (t : Token) (ts : List Token) :
    draft.written (t :: ts) = (draft.written [t]).written ts := by
  unfold written writeAll
  cases hdoc : t.kind.isDocComment with
  | true => simp [hdoc]
  | false => simp [hdoc]

/-! ### Runs -/

/-- Where the lexer gives the end the run is through. -/
lemma proceed_of_eof (h : draft.lexer.next.1.kind = .eof) :
    proceed draft = (true, { draft with lexer := draft.lexer.next.2 }) := by
  rw [proceed, dif_pos h]

/-- Where the lexer gives an invalid token the run is given up. -/
lemma proceed_of_invalid (h : draft.lexer.next.1.kind = .invalid) :
    proceed draft = (false, { draft with
      lexer := draft.lexer.next.2.report (.invalidSource draft.lexer.next.1.span) }) := by
  have hne : draft.lexer.next.1.kind ≠ .eof := by simp [h]
  rw [proceed, dif_neg hne]
  simp [step_of_invalid _ h]

/-- Behind a valid token that is not the end the run goes on. -/
lemma proceed_of_valid (hne : draft.lexer.next.1.kind ≠ .eof)
    (h : draft.lexer.next.1.kind ≠ .invalid) :
    proceed draft =
      proceed ({ draft with lexer := draft.lexer.next.2 }.written [draft.lexer.next.1]) := by
  rw [proceed, dif_neg hne]
  simp [step_of_valid _ h]

/-- A run over some valid tokens writes them. -/
lemma proceed_of_steps (draft : Draft) {last : Lexer} {ts : List Token}
    (h : draft.lexer.Steps ts last) (hvalid : ∀ t ∈ ts, t.kind ≠ .invalid) :
    proceed draft = proceed { draft.written ts with lexer := last } := by
  -- the run takes one token in each step of the lexer
  generalize hlexer : draft.lexer = lexer at h
  induction h generalizing draft with
  | nil =>
    subst hlexer
    rw [Draft.written_nil]
  | @cons lexer last ts hne _ ih =>
    obtain ⟨hfirst, hrest⟩ := List.forall_mem_cons.1 hvalid
    subst hlexer
    have hwritten := Draft.written_cons { draft with lexer := draft.lexer.next.2 }
      draft.lexer.next.1 ts
    rw [proceed_of_valid hne hfirst, ih _ hrest rfl, ← hwritten]
    rfl

variable (m : Minifier) (names : Renaming) {lexer : Lexer}

/-- A lexer that reads valid tokens only is read to its end.  All tokens in front of the end are
written, and nothing is reported. -/
theorem run_of_valid (hvalid : ∀ t ∈ lexer.readAll.1, t.kind ≠ .invalid) :
    let written := writeAll (m, names) lexer.readAll.1.dropLast
    run m names lexer =
        ⟨some written.1, { written.2.1 with finished := true }, written.2.2, lexer.readAll.2⟩ ∧
      lexer.readAll.2.log = lexer.log := by
  obtain ⟨ts, last, hsteps, hend⟩ := lexer.exists_steps
  have hread : lexer.readAll = (ts ++ [last.next.1], last.next.2) := by
    rw [hsteps.readAll_eq, Lexer.readAll_of_eof hend]
  rw [hread] at hvalid ⊢
  have hbefore : ∀ t ∈ ts, t.kind ≠ .invalid := fun t ht => hvalid t (List.mem_append_left _ ht)
  have hproceed := proceed_of_steps { minifier := m, names, lexer } hsteps hbefore
  have hrecorded : last.next.2.recorded = lexer.recorded := by
    rw [Lexer.recorded_next_of_valid (by simp [hend]), hsteps.recorded_eq hbefore]
  rw [List.dropLast_concat]
  constructor
  · rw [run, hproceed, proceed_of_eof hend]
    simp [Draft.written]
  · rw [Lexer.log, hrecorded, Lexer.log]

/-- At the first invalid token a run is given up.  Up to there nothing was reported; then there are
the report of the lexer, which is the first of all that it would record, and one more about the same
place. -/
theorem run_of_first_invalid {before after : List Token} {t : Token}
    (hread : lexer.readAll.1 = before ++ t :: after)
    (hbefore : ∀ t ∈ before, t.kind ≠ .invalid) (ht : t.kind = .invalid) :
    (run m names lexer).pieces = none ∧
      ∃ d more, lexer.readAll.2.log = lexer.log.map (· ++ d :: more) ∧
        (run m names lexer).lexer.log = lexer.log.map (· ++ [d, .invalidSource t.span]) := by
  obtain ⟨mid, hsteps, rfl⟩ := Lexer.exists_steps_of_readAll hread
  obtain ⟨d, hd⟩ := Lexer.exists_recorded_next_of_invalid ht
  rw [hsteps.recorded_eq hbefore] at hd
  obtain ⟨more, hmore⟩ := mid.next.2.exists_recorded_readAll
  rw [hd] at hmore
  have hproceed := proceed_of_steps { minifier := m, names, lexer } hsteps hbefore
  rw [run, hproceed, proceed_of_invalid ht]
  refine ⟨rfl, d, more.toList, ?_, ?_⟩
  · rw [hsteps.readAll_eq, Lexer.readAll_of_ne_eof (by simp [ht])]
    dsimp only
    rw [Lexer.log, hmore]
    simp [Lexer.log, Function.comp_def]
  · simp [Lexer.log, Lexer.report, hd, Function.comp_def]

/-- Only lexers that read valid tokens only are read to their end. -/
theorem valid_of_run {E : List Piece} (h : (run m names lexer).pieces = some E) :
    ∀ t ∈ lexer.readAll.1, t.kind ≠ .invalid := by
  intro t ht hkind
  obtain ⟨first, hfirst⟩ := exists_find?_invalid ht hkind
  obtain ⟨before, after, hread, hbefore, hinvalid⟩ := split_of_find? hfirst
  rw [(run_of_first_invalid m names hread hbefore hinvalid).1] at h
  simp at h

end Minifier

end ZigGolf
