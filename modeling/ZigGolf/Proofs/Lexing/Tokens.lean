import Mathlib.Algebra.Group.Nat.Defs
import ZigGolf.Lexing.Lexer
import ZigGolf.Proofs.Bytes.Utf8
import ZigGolf.Proofs.Lexing.Shape

/-!
# The tokens that a lexer reads

A lexer reads the lexemes of its text one after the other, gives each of them its place and records
a report about each invalid one (`Lexer.next_of_some`, `Lexer.recorded_next_of_clear`).  From this
step follows what it reads and records on the way to the end: the tokens of the text, and a report
about each invalid one of them (`Lexer.readAll_of_clear`).  A source that is not UTF-8 is given up
instead, with one token and one report (`Lexer.readAll_of_malformed`).

The log is only added to: what is read is the same without it (`Lexer.next_silent`,
`Lexer.readAll_silent`).
-/

namespace ZigGolf

/-! ### The tokens of a text -/

/-- The tokens of a text that is known to be UTF-8. -/
def tokensOfText (file : UInt32) (s : Bytes) : List Token :=
  (thread (Lexeme.place file) 0 (lexemes s)).1

/-- The kinds and texts of tokens are those of the lexemes. -/
lemma map_thread_place (file : UInt32) (offset : Nat) (ls : List Lexeme) :
    (thread (Lexeme.place file) offset ls).1.map (fun t => (t.kind, t.lexeme)) =
      ls.map fun l => (l.kind, l.text) := by
  induction ls generalizing offset with
  | nil => rfl
  | cons l ls ih =>
    rw [thread_cons, List.map_cons, List.map_cons, ih]
    rfl

lemma map_tokensOfText (file : UInt32) (s : Bytes) :
    (tokensOfText file s).map (fun t => (t.kind, t.lexeme)) =
      (lexemes s).map fun l => (l.kind, l.text) :=
  map_thread_place file 0 (lexemes s)

/-- What holds of the kinds and texts of all tokens holds of those of all lexemes. -/
lemma forall_tokensOfText_iff (file : UInt32) {s : Bytes} {P : Kind × Bytes → Prop} :
    (∀ t ∈ tokensOfText file s, P (t.kind, t.lexeme)) ↔ ∀ l ∈ lexemes s, P (l.kind, l.text) := by
  rw [← List.forall_mem_map (f := fun t : Token => (t.kind, t.lexeme)), map_tokensOfText,
    List.forall_mem_map]

/-- No lexeme is the end. -/
lemma kind_ne_eof_of_nextLexeme? {s r : Bytes} {l : Lexeme} (h : nextLexeme? s = some (l, r)) :
    l.kind ≠ .eof := by
  by_cases hk : l.kind = .invalid
  · simp [hk]
  · exact (reads_of_nextLexeme? h hk).kind_ne_eof

namespace Lexer

variable {lexer : Lexer}

/-! ### One token -/

/-- The lexers in front of UTF-8 text: it has been looked at already, or there is nothing to find
when it is looked at. -/
def Clear (lexer : Lexer) : Prop := lexer.checked = true ∨ Utf8.WellFormed lexer.rest

/-- In front of UTF-8 text a token is scanned. -/
lemma next_of_clear (h : lexer.Clear) : lexer.next = { lexer with checked := true }.scan := by
  rcases lexer with ⟨file, offset, rest, checked, recorded⟩
  cases checked with
  | true => rfl
  | false =>
    have hnone : Utf8.malformed? rest = none := h.resolve_left Bool.noConfusion
    simp [next, hnone]

/-- The first lexeme of UTF-8 text is read. -/
lemma next_of_some {cut : Lexeme × Bytes} (h : lexer.Clear)
    (hcut : nextLexeme? lexer.rest = some cut) :
    lexer.next = { lexer with checked := true }.readLexeme cut := by
  rw [next_of_clear h]
  exact scan_eq_some hcut

/-- Where UTF-8 text has no lexeme its end is read. -/
lemma next_of_none (h : lexer.Clear) (hcut : nextLexeme? lexer.rest = none) :
    lexer.next = { lexer with checked := true }.readEnd := by
  rw [next_of_clear h]
  exact scan_eq_none hcut

/-- A source that is not UTF-8 is given up before anything is read. -/
lemma next_of_malformed {offset : Nat} {b : UInt8} (hchecked : lexer.checked = false)
    (h : Utf8.malformed? lexer.rest = some (offset, b)) : lexer.next = lexer.giveUp offset b := by
  rw [next, hchecked, h]
  rfl

/-- Text that is not clear is malformed. -/
lemma clear_or_malformed (lexer : Lexer) :
    lexer.Clear ∨ lexer.checked = false ∧
      ∃ offset b, Utf8.malformed? lexer.rest = some (offset, b) := by
  cases hchecked : lexer.checked with
  | true => exact .inl (.inl hchecked)
  | false =>
    cases hmalformed : Utf8.malformed? lexer.rest with
    | none => exact .inl (.inr hmalformed)
    | some p => exact .inr ⟨rfl, p.1, p.2, rfl⟩

/-! ### What is recorded -/

/-- A step in front of UTF-8 text records one report if the token is invalid, about that token, and
no report if it is valid. -/
lemma recorded_next_of_clear (h : lexer.Clear) :
    lexer.next.2.recorded =
      if lexer.next.1.kind = .invalid then
        lexer.recorded.map (·.push (.invalidToken lexer.next.1))
      else lexer.recorded := by
  cases hcut : nextLexeme? lexer.rest with
  | none =>
    rw [next_of_none h hcut]
    rfl
  | some cut =>
    rw [next_of_some h hcut]
    rfl

/-- A step that gives a source up records one report, and its token is invalid. -/
lemma recorded_next_of_malformed {offset : Nat} {b : UInt8} (hchecked : lexer.checked = false)
    (h : Utf8.malformed? lexer.rest = some (offset, b)) :
    lexer.next.1.kind = .invalid ∧ lexer.next.2.recorded = lexer.recorded.map (·.push
      (.malformedSource ⟨lexer.file, offset.toUInt32,
        min (offset.toUInt32 + 1) lexer.rest.length.toUInt32⟩ b)) := by
  rw [next_of_malformed hchecked h]
  exact ⟨rfl, rfl⟩

/-- No step records anything about a valid token. -/
lemma recorded_next_of_valid (h : lexer.next.1.kind ≠ .invalid) :
    lexer.next.2.recorded = lexer.recorded := by
  rcases lexer.clear_or_malformed with hclear | ⟨hchecked, offset, b, hmalformed⟩
  · rw [recorded_next_of_clear hclear, if_neg h]
  · exact absurd (recorded_next_of_malformed hchecked hmalformed).1 h

/-- Every step records one report about an invalid token. -/
lemma exists_recorded_next_of_invalid (h : lexer.next.1.kind = .invalid) :
    ∃ d, lexer.next.2.recorded = lexer.recorded.map (·.push d) := by
  rcases lexer.clear_or_malformed with hclear | ⟨hchecked, offset, b, hmalformed⟩
  · exact ⟨_, by rw [recorded_next_of_clear hclear, if_pos h]⟩
  · exact ⟨_, (recorded_next_of_malformed hchecked hmalformed).2⟩

/-! ### The log is only added to -/

/-- A lexer without its log. -/
def silent (lexer : Lexer) : Lexer := { lexer with recorded := none }

lemma readLexeme_silent (lexer : Lexer) (cut : Lexeme × Bytes) :
    lexer.silent.readLexeme cut = ((lexer.readLexeme cut).1, (lexer.readLexeme cut).2.silent) := by
  unfold readLexeme silent
  simp

/-- What is read in a step does not depend on the log. -/
lemma next_silent (lexer : Lexer) : lexer.silent.next = (lexer.next.1, lexer.next.2.silent) := by
  rcases lexer.clear_or_malformed with h | ⟨hchecked, offset, b, hmalformed⟩
  · have hsilent : lexer.silent.Clear := h
    cases hcut : nextLexeme? lexer.rest with
    | none =>
      rw [next_of_none h hcut, next_of_none hsilent hcut]
      rfl
    | some cut =>
      rw [next_of_some h hcut, next_of_some hsilent hcut]
      exact readLexeme_silent { lexer with checked := true } cut
  · have hsilent : lexer.silent.next = lexer.silent.giveUp offset b :=
      next_of_malformed hchecked hmalformed
    rw [next_of_malformed hchecked hmalformed, hsilent]
    rfl

/-! ### All tokens -/

/-- What holds where the end is read, and in front of any other token if it holds behind it, holds
of every lexer: there is less left to read with each token. -/
@[elab_as_elim]
lemma readInduction {motive : Lexer → Prop}
    (eof : ∀ lexer : Lexer, lexer.next.1.kind = .eof → motive lexer)
    (token : ∀ lexer : Lexer, lexer.next.1.kind ≠ .eof → motive lexer.next.2 → motive lexer)
    (lexer : Lexer) : motive lexer := by
  induction hn : lexer.rest.length using Nat.strongRecOn generalizing lexer with
  | _ n ih =>
    by_cases h : lexer.next.1.kind = .eof
    · exact eof lexer h
    · exact token lexer h (ih _ (hn ▸ next_shrinks h) lexer.next.2 rfl)

/-- The loop adds to what has been read before it. -/
lemma readAllFrom_eq (read : Array Token) (lexer : Lexer) :
    lexer.readAllFrom read = (read.toList ++ lexer.readAll.1, lexer.readAll.2) := by
  induction lexer using readInduction generalizing read with
  | eof lexer h =>
    rw [readAll, readAllFrom, readAllFrom.eq_def #[], dif_pos h, dif_pos h]
    simp
  | token lexer h ih =>
    rw [readAll, readAllFrom, readAllFrom.eq_def #[], dif_neg h, dif_neg h, ih, ih (#[].push _)]
    simp

/-- Where the end is read there is one token, the end. -/
lemma readAll_of_eof (h : lexer.next.1.kind = .eof) :
    lexer.readAll = ([lexer.next.1], lexer.next.2) := by
  rw [readAll, readAllFrom, dif_pos h]
  rfl

/-- Behind a token that is not the end reading goes on. -/
lemma readAll_of_ne_eof (h : lexer.next.1.kind ≠ .eof) :
    lexer.readAll = (lexer.next.1 :: lexer.next.2.readAll.1, lexer.next.2.readAll.2) := by
  rw [readAll, readAllFrom, dif_neg h, readAllFrom_eq]
  rfl

/-- What is read does not depend on the log. -/
lemma readAll_silent (lexer : Lexer) :
    lexer.silent.readAll = (lexer.readAll.1, lexer.readAll.2.silent) := by
  induction lexer using readInduction with
  | eof lexer h =>
    have hsilent := next_silent lexer
    rw [readAll_of_eof h, readAll_of_eof (by rwa [hsilent]), hsilent]
  | token lexer h ih =>
    have hsilent := next_silent lexer
    rw [readAll_of_ne_eof h, readAll_of_ne_eof (by rwa [hsilent]), hsilent, ih]

/-- A lexer reads the same tokens when it is given a log to add to. -/
lemma fst_readAll_attach (lexer : Lexer) (log : Log) :
    (lexer.attach log).readAll.1 = lexer.readAll.1 := by
  have hsame : (lexer.attach log).silent = lexer.silent := rfl
  have hattached := readAll_silent (lexer.attach log)
  rw [hsame, readAll_silent lexer] at hattached
  exact (congrArg Prod.fst hattached).symm

/-! ### Several tokens -/

/-- Reading some tokens in turn, none of which is the end, leads from one lexer to another. -/
inductive Steps : Lexer → List Token → Lexer → Prop
  | nil {lexer : Lexer} : Steps lexer [] lexer
  | cons {lexer last : Lexer} {ts : List Token} : lexer.next.1.kind ≠ .eof →
      Steps lexer.next.2 ts last → Steps lexer (lexer.next.1 :: ts) last

/-- The first token read is the first of all. -/
lemma head?_readAll (lexer : Lexer) : lexer.readAll.1.head? = some lexer.next.1 := by
  by_cases h : lexer.next.1.kind = .eof
  · rw [readAll_of_eof h]
    rfl
  · rw [readAll_of_ne_eof h]
    rfl

/-- What is read in all is what is read in some steps, and then the rest. -/
lemma Steps.readAll_eq {last : Lexer} {ts : List Token} (h : Steps lexer ts last) :
    lexer.readAll = (ts ++ last.readAll.1, last.readAll.2) := by
  induction h with
  | nil => rfl
  | cons hne _ ih =>
    rw [readAll_of_ne_eof hne, ih]
    rfl

/-- All that is read in front of a token is read in steps. -/
lemma exists_steps_of_readAll {before after : List Token} {t : Token}
    (h : lexer.readAll.1 = before ++ t :: after) :
    ∃ mid, Steps lexer before mid ∧ mid.next.1 = t := by
  induction before generalizing lexer with
  | nil =>
    have hhead := head?_readAll lexer
    rw [h] at hhead
    exact ⟨lexer, .nil, (Option.some.inj hhead).symm⟩
  | cons u before ih =>
    by_cases hend : lexer.next.1.kind = .eof
    · simp [readAll_of_eof hend] at h
    · rw [readAll_of_ne_eof hend] at h
      obtain ⟨rfl, hrest⟩ := List.cons.inj h
      obtain ⟨mid, hsteps, hnext⟩ := ih hrest
      exact ⟨mid, .cons hend hsteps, hnext⟩

/-- Every lexer comes to its end. -/
lemma exists_steps (lexer : Lexer) :
    ∃ ts last, Steps lexer ts last ∧ last.next.1.kind = .eof := by
  induction lexer using readInduction with
  | eof lexer h => exact ⟨[], lexer, .nil, h⟩
  | token lexer h ih =>
    obtain ⟨ts, last, hsteps, hlast⟩ := ih
    exact ⟨_, last, .cons h hsteps, hlast⟩

/-- As long as all tokens are valid nothing is recorded. -/
lemma Steps.recorded_eq {last : Lexer} {ts : List Token} (h : Steps lexer ts last)
    (hvalid : ∀ t ∈ ts, t.kind ≠ .invalid) : last.recorded = lexer.recorded := by
  induction h with
  | nil => rfl
  | cons _ _ ih =>
    obtain ⟨hfirst, hrest⟩ := List.forall_mem_cons.1 hvalid
    rw [ih hrest, recorded_next_of_valid hfirst]

/-- What has been recorded stays recorded. -/
lemma exists_recorded_readAll (lexer : Lexer) :
    ∃ more, lexer.readAll.2.recorded = lexer.recorded.map (· ++ more) := by
  induction lexer using readInduction with
  | eof lexer h =>
    have hvalid : lexer.next.1.kind ≠ .invalid := by simp [h]
    exact ⟨#[], by simp [readAll_of_eof h, recorded_next_of_valid hvalid]⟩
  | token lexer h ih =>
    obtain ⟨more, hmore⟩ := ih
    rw [readAll_of_ne_eof h]
    dsimp only
    rw [hmore]
    by_cases hkind : lexer.next.1.kind = .invalid
    · obtain ⟨d, hd⟩ := exists_recorded_next_of_invalid hkind
      exact ⟨#[d] ++ more, by simp [hd, Function.comp_def]⟩
    · exact ⟨more, by rw [recorded_next_of_valid hkind]⟩

end Lexer

/-- The reports about some tokens: one about each invalid one, in their order. -/
def reportsOn (ts : List Token) : Log := (ts.filter fun t => t.kind = .invalid).map .invalidToken

lemma reportsOn_append (ts us : List Token) :
    reportsOn (ts ++ us) = reportsOn ts ++ reportsOn us := by
  rw [reportsOn, List.filter_append, List.map_append]
  rfl

lemma reportsOn_cons (t : Token) (ts : List Token) :
    reportsOn (t :: ts) =
      (if t.kind = .invalid then [.invalidToken t] else []) ++ reportsOn ts := by
  by_cases h : t.kind = .invalid
  · simp [reportsOn, h]
  · simp [reportsOn, h]

namespace Lexer

variable {lexer : Lexer}

/-- Up to the end of UTF-8 text the tokens of its lexemes are read, and a report is recorded about
each invalid one of them. -/
lemma readAll_of_clear (lexer : Lexer) (h : lexer.Clear) :
    lexer.readAll =
      ((thread (Lexeme.place lexer.file) lexer.offset (lexemes lexer.rest)).1 ++
        [Token.atEnd lexer.file (lexer.offset + lexer.rest.length)],
      ⟨lexer.file, lexer.offset + lexer.rest.length, [], true, lexer.recorded.map (· ++
        (reportsOn (thread (Lexeme.place lexer.file) lexer.offset
          (lexemes lexer.rest)).1).toArray)⟩) := by
  -- a lexeme is read in each step, so the induction is on what is left of the text
  induction hs : lexer.rest using lexemeInduction generalizing lexer with
  | gap s hcut =>
    subst hs
    have hnext := next_of_none h hcut
    rw [readAll_of_eof (by rw [hnext]; rfl), hnext, lexemes_of_none hcut]
    simp [readEnd, reportsOn]
  | lexeme s l rest hcut ih =>
    subst hs
    have hnext := next_of_some h hcut
    have hrest := ih ({ lexer with checked := true }.readLexeme (l, rest)).2 (.inl rfl) rfl
    have hlength := congrArg List.length (nextLexeme?_append hcut)
    simp only [List.length_append] at hlength
    have hsize : lexer.offset + l.gap.length + l.text.length + rest.length =
        lexer.offset + lexer.rest.length := by omega
    rw [readAll_of_ne_eof (by rw [hnext]; exact kind_ne_eof_of_nextLexeme? hcut), hnext, hrest,
      lexemes_of_some hcut, thread_cons, reportsOn_cons]
    simp only [readLexeme, Lexeme.place, hsize, List.cons_append]
    by_cases hkind : l.kind = .invalid
    · simp [hkind, Function.comp_def]
    · simp [hkind]

/-- Of a source that is not UTF-8 one byte and the end are read, and one report is recorded. -/
lemma readAll_of_malformed (lexer : Lexer) {offset : Nat} {b : UInt8}
    (hchecked : lexer.checked = false) (h : Utf8.malformed? lexer.rest = some (offset, b)) :
    lexer.readAll =
      ([(lexer.giveUp offset b).1, .atEnd lexer.file (lexer.offset + lexer.rest.length)],
        (lexer.giveUp offset b).2) := by
  have hnext := next_of_malformed hchecked h
  have hend := readAll_of_clear (lexer.giveUp offset b).2 (.inl rfl)
  rw [readAll_of_ne_eof (by rw [hnext]; exact Kind.noConfusion), hnext, hend]
  simp [giveUp, reportMalformed, report, skip, reportsOn, Function.comp_def]

end Lexer

/-! ### Whole sources -/

variable {file : UInt32} {source : Bytes}

/-- A lexer has the same tokens with and without a log. -/
lemma readAll_ofSource (file : UInt32) (source : Bytes) (log : Option Log) :
    (Lexer.ofSource file source log).readAll.1 = lex file source :=
  (congrArg Prod.fst (Lexer.readAll_silent (.ofSource file source log))).symm

/-- The tokens of UTF-8 text are those of its lexemes, and its end. -/
lemma lex_of_wellFormed (hs : Utf8.WellFormed source) :
    lex file source = tokensOfText file source ++ [Token.atEnd file source.length] := by
  have hread := Lexer.readAll_of_clear (.ofSource file source none) (.inr hs)
  rw [lex, hread]
  simp [Lexer.ofSource, tokensOfText]

/-- The tokens of a source that is not UTF-8 are the byte at which it stops being so, and its
end. -/
lemma lex_of_malformed {offset : Nat} {b : UInt8}
    (h : Utf8.malformed? source = some (offset, b)) :
    lex file source = [⟨.invalid, ⟨file, offset.toUInt32, offset.toUInt32 + 1⟩, [b]⟩,
      Token.atEnd file source.length] := by
  have hread := Lexer.readAll_of_malformed (.ofSource file source none) rfl h
  rw [lex, hread]
  simp [Lexer.ofSource, Lexer.giveUp]

/-- The tokens of a source that is not UTF-8 are a byte of it and its end. -/
lemma exists_lex_eq_of_not_wellFormed (file : UInt32) (hs : ¬ Utf8.WellFormed source) :
    ∃ (offset : Nat) (b : UInt8), source[offset]? = some b ∧
      lex file source = [⟨.invalid, ⟨file, offset.toUInt32, offset.toUInt32 + 1⟩, [b]⟩,
        Token.atEnd file source.length] := by
  cases hmalformed : Utf8.malformed? source with
  | none => exact absurd hmalformed hs
  | some p =>
    obtain ⟨offset, b⟩ := p
    refine ⟨offset, b, ?_, lex_of_malformed hmalformed⟩
    obtain ⟨a, r, rfl, rfl, -⟩ := Utf8.exists_split_of_malformed? hmalformed
    simp

/-- What is recorded about UTF-8 text, whatever the log held before. -/
lemma log_readAll_of_wellFormed (hs : Utf8.WellFormed source) (log : Option Log) :
    (Lexer.ofSource file source log).readAll.2.log =
      log.map (· ++ reportsOn (tokensOfText file source)) := by
  have hread := Lexer.readAll_of_clear (.ofSource file source log) (.inr hs)
  rw [hread]
  simp [Lexer.ofSource, Lexer.log, tokensOfText, Function.comp_def]

/-- What is recorded about a source that is not UTF-8, whatever the log held before. -/
lemma log_readAll_of_malformed {offset : Nat} {b : UInt8}
    (h : Utf8.malformed? source = some (offset, b)) (log : Option Log) :
    (Lexer.ofSource file source log).readAll.2.log = log.map (· ++ [.malformedSource
      ⟨file, offset.toUInt32, min (offset.toUInt32 + 1) source.length.toUInt32⟩ b]) := by
  have hread := Lexer.readAll_of_malformed (.ofSource file source log) rfl h
  rw [hread]
  simp [Lexer.ofSource, Lexer.giveUp, Lexer.reportMalformed, Lexer.report, Lexer.skip, Lexer.log,
    Function.comp_def]

/-- The reports about UTF-8 text. -/
lemma lexReports_of_wellFormed (file : UInt32) (hs : Utf8.WellFormed source) :
    lexReports file source = reportsOn (tokensOfText file source) := by
  rw [lexReports, log_readAll_of_wellFormed hs]
  rfl

/-- The report about a source that is not UTF-8. -/
lemma lexReports_of_malformed (file : UInt32) {offset : Nat} {b : UInt8}
    (h : Utf8.malformed? source = some (offset, b)) :
    lexReports file source = [.malformedSource
      ⟨file, offset.toUInt32, min (offset.toUInt32 + 1) source.length.toUInt32⟩ b] := by
  rw [lexReports, log_readAll_of_malformed h]
  rfl

/-- The place that is reported is not cut off at the end of the source. -/
lemma min_malformed_add_one {offset : Nat} {b : UInt8}
    (h : Utf8.malformed? source = some (offset, b)) (hlength : source.length < 2 ^ 32) :
    min (offset.toUInt32 + 1) source.length.toUInt32 = offset.toUInt32 + 1 := by
  obtain ⟨a, r, rfl, rfl, -⟩ := Utf8.exists_split_of_malformed? h
  rw [List.length_append, List.length_cons] at hlength ⊢
  have hadd : (a.length + 1).toUInt32 = a.length.toUInt32 + 1 := UInt32.ofNat_add a.length 1
  have hle : a.length.toUInt32 + 1 ≤ (a.length + (r.length + 1)).toUInt32 := by
    rw [← hadd, UInt32.le_iff_toNat_le]
    change (a.length + 1) % 2 ^ 32 ≤ (a.length + (r.length + 1)) % 2 ^ 32
    omega
  exact if_pos hle

/-- What is recorded about a source is added to what a log holds before, if a log is kept. -/
lemma log_readAll_ofSource (file : UInt32) (source : Bytes) (log : Option Log) :
    (Lexer.ofSource file source log).readAll.2.log = log.map (· ++ lexReports file source) := by
  cases hmalformed : Utf8.malformed? source with
  | none => rw [log_readAll_of_wellFormed hmalformed, lexReports_of_wellFormed file hmalformed]
  | some p => rw [log_readAll_of_malformed hmalformed, lexReports_of_malformed file hmalformed]

end ZigGolf
