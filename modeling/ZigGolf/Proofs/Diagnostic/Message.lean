import ZigGolf.Diagnostic.Message
import ZigGolf.Proofs.Bytes.Class
import Mathlib.Data.List.Basic

/-!
# Arguments in messages

A message ought to be its template with all placeholders replaced at once, so that nothing in an
argument is ever taken for a placeholder (`fillOnce`).  The arguments are put in one after the other
instead, and a placeholder that an argument brings along is filled by a later one.

Templates are such that an argument never makes up a placeholder together with the text around it
(`Cell.guarded`).  So it can be said exactly what becomes of a template: each placeholder in it is
replaced by its argument with the later arguments put in (`settleFrom`).  Only if no argument holds
the placeholder of a later one are the arguments put in as they are (`message_eq_fillOnce`).
-/

namespace ZigGolf

/-! ### Numbers in decimal digits -/

/-- Decimal digits are stored as they are. -/
lemma toNat_byte_of_isDigit {c : Char} (h : c.isDigit = true) :
    (byte c).toNat = c.toNat ∧ 48 ≤ c.toNat ∧ c.toNat ≤ 57 := by
  rw [Char.isDigit, Bool.and_eq_true, decide_eq_true_eq, decide_eq_true_eq] at h
  have hlow : 48 ≤ c.toNat := UInt32.le_iff_toNat_le.1 h.1
  have hhigh : c.toNat ≤ 57 := UInt32.le_iff_toNat_le.1 h.2
  refine ⟨?_, hlow, hhigh⟩
  rw [byte, Nat.toUInt8, UInt8.toNat_ofNat', Nat.mod_eq_of_lt (by omega)]

/-- A number is written with digits. -/
lemma isDigit_of_mem_decimal {n : Nat} {b : UInt8} (h : b ∈ decimal n) : isDigit b = true := by
  obtain ⟨c, hc, rfl⟩ := List.mem_map.1 h
  obtain ⟨hbyte, hlow, hhigh⟩ :=
    toNat_byte_of_isDigit (Nat.isDigit_of_mem_toDigits (by decide) (by decide) hc)
  rw [isDigit, Bool.and_eq_true, decide_eq_true_eq, decide_eq_true_eq, UInt8.le_iff_toNat_le,
    UInt8.le_iff_toNat_le, hbyte]
  exact ⟨hlow, hhigh⟩

/-- A number can be told from its decimal digits. -/
lemma decimal_injective : Function.Injective decimal := by
  have hchars : ∀ n, (decimal n).map (fun b => Char.ofNat b.toNat) = Nat.toDigits 10 n := by
    intro n
    rw [decimal, List.map_map]
    refine (List.map_congr_left fun c hc => ?_).trans (List.map_id _)
    obtain ⟨hbyte, -⟩ :=
      toNat_byte_of_isDigit (Nat.isDigit_of_mem_toDigits (by decide) (by decide) hc)
    rw [Function.comp_apply, hbyte, Char.ofNat_toNat, id_eq]
  intro m n h
  have hdigits : Nat.toDigits 10 m = Nat.toDigits 10 n := by rw [← hchars, ← hchars, h]
  rw [← Nat.ofDigitChars_ten_toDigits (n := m), hdigits, Nat.ofDigitChars_ten_toDigits]

/-! ### Placeholders -/

section Placeholder

variable {i j : Nat} {s : Bytes}

/-- The byte that starts a placeholder. -/
abbrev openingBrace : UInt8 := 0x7B

/-- The byte that ends a placeholder. -/
abbrev closingBrace : UInt8 := 0x7D

/-- The bytes that placeholders are made of. -/
def isPlaceholderByte (b : UInt8) : Bool := b == openingBrace || b == closingBrace || isDigit b

lemma isDigit_braces : isDigit openingBrace = false ∧ isDigit closingBrace = false := by decide

/-- A placeholder is a number in braces. -/
lemma placeholder_eq (i : Nat) :
    placeholder i = openingBrace :: (decimal i ++ [closingBrace]) := rfl

lemma placeholder_ne_nil (i : Nat) : placeholder i ≠ [] := List.cons_ne_nil _ _

/-- A placeholder is made of braces and digits. -/
lemma isPlaceholderByte_of_mem {b : UInt8} (h : b ∈ placeholder i) :
    isPlaceholderByte b = true := by
  rw [placeholder_eq, List.mem_cons, List.mem_append, List.mem_singleton] at h
  rcases h with rfl | h | rfl
  · rfl
  · simp [isPlaceholderByte, isDigit_of_mem_decimal h]
  · rfl

/-- A placeholder starts only once. -/
lemma openingBrace_notMem_tail (i : Nat) : openingBrace ∉ decimal i ++ [closingBrace] := by
  intro h
  rcases List.mem_append.1 h with hdigit | hbrace
  · exact absurd (isDigit_of_mem_decimal hdigit) (by decide)
  · exact absurd hbrace (by decide)

/-- A text starts with one placeholder at most. -/
lemma eq_of_prefix_placeholder (h : placeholder i <+: placeholder j ++ s) : i = j := by
  obtain ⟨r, hr⟩ := h
  have hstop : ∀ (n : Nat) (t : Bytes),
      (decimal n ++ closingBrace :: t).takeWhile isDigit = decimal n := by
    intro n t
    rw [List.takeWhile_append_of_pos fun b hb => isDigit_of_mem_decimal hb]
    simp [isDigit_braces.2]
  have htail : decimal i ++ closingBrace :: r = decimal j ++ closingBrace :: s := by
    simpa [placeholder_eq] using hr
  have hdigits := congrArg (List.takeWhile isDigit) htail
  rw [hstop, hstop] at hdigits
  exact decimal_injective hdigits

/-- A placeholder starts with an opening brace. -/
lemma not_prefix_placeholder {b : UInt8} (hb : b ≠ openingBrace) (i : Nat) (s : Bytes) :
    ¬placeholder i <+: b :: s := by
  intro h
  rw [placeholder_eq, List.cons_prefix_cons] at h
  exact hb h.1.symm

/-- No placeholder stands in a text without an opening brace. -/
lemma not_infix_placeholder (h : openingBrace ∉ s) (i : Nat) : ¬placeholder i <:+: s := by
  intro hinside
  exact h (hinside.subset (by rw [placeholder_eq]; exact List.mem_cons_self))

/-- No placeholder holds another one. -/
lemma eq_of_infix_placeholder (h : placeholder i <:+: placeholder j) : i = j := by
  rw [placeholder_eq j, List.infix_cons_iff] at h
  rcases h with hfront | hinside
  · refine eq_of_prefix_placeholder (s := []) ?_
    rwa [List.append_nil, placeholder_eq j]
  · exact absurd hinside (not_infix_placeholder (openingBrace_notMem_tail j) i)

end Placeholder

/-! ### One argument -/

section Substitute

variable {key value s x y : Bytes} {b : UInt8}

@[simp] lemma substitute_nil (key value : Bytes) : substitute key value [] = [] := by
  rw [substitute, unroll_of_none _ _ _ rfl, List.flatten_nil]

/-- An occurrence of the key is replaced. -/
lemma substitute_append_left (hkey : key ≠ []) (value s : Bytes) :
    substitute key value (key ++ s) = value ++ substitute key value s := by
  obtain ⟨b, rest, rfl⟩ := List.exists_cons_of_ne_nil hkey
  have hstep : substituteStep (b :: rest) value (b :: rest ++ s) = some (value, s) := by
    rw [List.cons_append, substituteStep, if_pos (by simp)]
    simp
  rw [substitute, unroll_of_some _ _ _ hstep, List.flatten_cons]
  rfl

/-- A byte at which no occurrence starts stays. -/
lemma substitute_cons (h : ¬key <+: b :: s) (value : Bytes) :
    substitute key value (b :: s) = b :: substitute key value s := by
  have hstep : substituteStep key value (b :: s) = some ([b], s) := by
    rw [substituteStep, if_neg (by rwa [List.isPrefixOf_iff_prefix])]
  rw [substitute, unroll_of_some _ _ _ hstep, List.flatten_cons]
  rfl

/-- A text without the key stays as it is. -/
lemma substitute_eq_self (h : ¬key <:+: s) (value : Bytes) : substitute key value s = s := by
  induction s with
  | nil => exact substitute_nil key value
  | cons b s ih =>
    rw [List.infix_cons_iff, not_or] at h
    rw [substitute_cons h.1, ih h.2]

/-- A text may be cut before a byte that the key does not have. -/
lemma substitute_append (hkey : key ≠ []) (hy : ∀ b ∈ y.head?, b ∉ key) (value x : Bytes) :
    substitute key value (x ++ y) = substitute key value x ++ substitute key value y := by
  induction hn : x.length using Nat.strongRecOn generalizing x with
  | _ n ih =>
    cases x with
    | nil => rw [substitute_nil, List.nil_append, List.nil_append]
    | cons b x =>
      by_cases hfront : key <+: b :: x
      · obtain ⟨r, hr⟩ := hfront
        have hlt : r.length < n := by
          have hpos := List.length_pos_iff.2 hkey
          rw [← hn, ← hr, List.length_append]
          omega
        rw [← hr, List.append_assoc, substitute_append_left hkey, substitute_append_left hkey,
          ih r.length hlt r rfl, List.append_assoc]
      · -- an occurrence that starts here would run over the cut
        have hnot : ¬key <+: b :: (x ++ y) := by
          intro hlong
          rw [← List.cons_append] at hlong
          rcases List.prefix_or_prefix_of_prefix hlong (List.prefix_append (b :: x) y) with h | h
          · exact hfront h
          · obtain ⟨z, rfl⟩ := h
            rw [List.prefix_append_right_inj] at hlong
            cases z with
            | nil => exact hfront (by simp)
            | cons c z =>
              obtain ⟨w, rfl⟩ := hlong
              exact hy c rfl (by simp)
        rw [List.cons_append, substitute_cons hnot, substitute_cons hfront,
          ih x.length (by rw [← hn]; exact Nat.lt_succ_self _) x rfl, List.cons_append]

end Substitute

/-! ### All arguments -/

/-- The argument whose placeholder a text starts with, if there are `n` arguments. -/
def leadingArgument? (n : Nat) (s : Bytes) : Option Nat :=
  (List.range n).find? fun i => (placeholder i).isPrefixOf s

/-- Puts arguments into a template all at once: the template is read from left to right, and every
placeholder of an argument in it is replaced by the argument, which is not read. -/
def fillOnce (args : List Bytes) : Bytes → Bytes
  | [] => []
  | b :: rest =>
    match leadingArgument? args.length (b :: rest) with
    | some i => args.getD i [] ++ fillOnce args (rest.drop ((placeholder i).length - 1))
    | none => b :: fillOnce args rest
termination_by s => s.length
decreasing_by all_goals simp only [List.length_cons, List.length_drop]; omega

/-- Arguments from number `i` on, with all that come later put into each of them. -/
def settleFrom (i : Nat) : List Bytes → List Bytes
  | [] => []
  | arg :: args => fillFrom (i + 1) args arg :: settleFrom (i + 1) args

section Fill

variable {args : List Bytes} {i k : Nat} {s : Bytes}

/-- A text starts with the placeholder of an argument if that placeholder is a prefix of it: no two
placeholders are prefixes of the same text. -/
lemma leadingArgument?_eq_some_iff {n : Nat} :
    leadingArgument? n s = some i ↔ i < n ∧ placeholder i <+: s := by
  rw [leadingArgument?, List.find?_range_eq_some]
  constructor
  · rintro ⟨hfront, hmem, -⟩
    exact ⟨List.mem_range.1 hmem, List.isPrefixOf_iff_prefix.1 hfront⟩
  · rintro ⟨hi, r, rfl⟩
    refine ⟨by simp, List.mem_range.2 hi, fun j hj => ?_⟩
    rw [Bool.not_eq_true', Bool.eq_false_iff]
    intro hfront
    have heq := eq_of_prefix_placeholder (List.isPrefixOf_iff_prefix.1 hfront)
    omega

/-- A byte at which no placeholder of an argument starts stays. -/
lemma fillOnce_cons {b : UInt8} (h : ∀ i < args.length, ¬placeholder i <+: b :: s) :
    fillOnce args (b :: s) = b :: fillOnce args s := by
  have hnone : leadingArgument? args.length (b :: s) = none := by
    rw [Option.eq_none_iff_forall_ne_some]
    intro i hsome
    rw [leadingArgument?_eq_some_iff] at hsome
    exact h i hsome.1 hsome.2
  rw [fillOnce, hnone]

/-- What stands before the first opening brace stays. -/
lemma fillOnce_append_of_notMem (args : List Bytes) {x : Bytes} (hx : openingBrace ∉ x)
    (s : Bytes) : fillOnce args (x ++ s) = x ++ fillOnce args s := by
  induction x with
  | nil => rfl
  | cons b x ih =>
    rw [List.mem_cons, not_or] at hx
    rw [List.cons_append, fillOnce_cons fun i _ => not_prefix_placeholder (Ne.symm hx.1) i _,
      ih hx.2, List.cons_append]

/-- A placeholder is replaced by its argument, if there is one. -/
lemma fillOnce_placeholder_append (args : List Bytes) (i : Nat) (s : Bytes) :
    fillOnce args (placeholder i ++ s) = args[i]?.getD (placeholder i) ++ fillOnce args s := by
  rw [placeholder_eq, List.cons_append]
  by_cases hi : i < args.length
  · have hsome : leadingArgument? args.length
        (openingBrace :: (decimal i ++ [closingBrace] ++ s)) = some i :=
      leadingArgument?_eq_some_iff.2 ⟨hi, s, rfl⟩
    have hdrop : (decimal i ++ [closingBrace] ++ s).drop ((placeholder i).length - 1) = s := by
      rw [placeholder_eq, List.length_cons, Nat.add_sub_cancel, List.drop_left]
    rw [fillOnce, hsome]
    dsimp only
    rw [hdrop, List.getD_eq_getElem?_getD, List.getElem?_eq_getElem hi, Option.getD_some,
      Option.getD_some]
  · have hnone : ∀ j < args.length,
        ¬placeholder j <+: openingBrace :: (decimal i ++ [closingBrace] ++ s) := by
      intro j hj hfront
      have heq : j = i := eq_of_prefix_placeholder (s := s) hfront
      omega
    rw [fillOnce_cons hnone, fillOnce_append_of_notMem args (openingBrace_notMem_tail i),
      List.getElem?_eq_none (Nat.le_of_not_lt hi), Option.getD_none, List.cons_append]

/-- A text that holds no placeholder of an argument stays as it is. -/
lemma fillFrom_eq_self
    (h : ∀ j, i ≤ j → j < i + args.length → ¬placeholder j <:+: s) : fillFrom i args s = s := by
  induction args generalizing i with
  | nil => rfl
  | cons arg args ih =>
    rw [List.length_cons] at h
    rw [fillFrom, substitute_eq_self (h i (Nat.le_refl i) (by omega))]
    exact ih fun j hij hj => h j (by omega) (by omega)

/-- A placeholder is replaced by its argument, and the later ones are put into that. -/
lemma fillFrom_placeholder (i k : Nat) (args : List Bytes) :
    fillFrom i args (placeholder (i + k)) =
      (settleFrom i args)[k]?.getD (placeholder (i + k)) := by
  induction args generalizing i k with
  | nil => rfl
  | cons arg args ih =>
    cases k with
    | zero =>
      have hself := substitute_append_left (placeholder_ne_nil i) arg []
      rw [List.append_nil, substitute_nil, List.append_nil] at hself
      rw [Nat.add_zero, fillFrom, hself]
      rfl
    | succ k =>
      have hne : ¬placeholder i <:+: placeholder (i + (k + 1)) := by
        intro hinside
        have heq := eq_of_infix_placeholder hinside
        omega
      have hnext : i + (k + 1) = i + 1 + k := by omega
      rw [fillFrom, substitute_eq_self hne, hnext, ih]
      rfl

/-- In an argument that is settled the placeholders of the later arguments are filled. -/
lemma getElem?_settleFrom (i k : Nat) (args : List Bytes) :
    (settleFrom i args)[k]? = args[k]?.map (fillFrom (i + k + 1) (args.drop (k + 1))) := by
  induction args generalizing i k with
  | nil => rfl
  | cons arg args ih =>
    cases k with
    | zero => rfl
    | succ k =>
      have hnext : i + (k + 1) + 1 = i + 1 + k + 1 := by omega
      rw [settleFrom, List.getElem?_cons_succ, List.getElem?_cons_succ, ih, List.drop_succ_cons,
        hnext]

end Fill

/-! ### Templates -/

/-- A part of a template: a byte that stands for itself, or the placeholder of an argument. -/
inductive Cell where
  | byte (b : UInt8)
  | argument (i : Nat)
  deriving DecidableEq

namespace Cell

/-- What stands for a part, with a value for every argument. -/
def text (value : Nat → Bytes) : Cell → Bytes
  | .byte b => [b]
  | .argument i => value i

/-- The parts of a text that stands for itself. -/
def literal (s : String) : List Cell := (ascii s).map .byte

/-- The templates in which an argument cannot make up a placeholder together with the text around
it: no byte of them starts a placeholder, and behind an argument stands a byte that no placeholder
has. -/
def guarded : List Cell → Bool
  | [] => true
  | .byte b :: cells => b != openingBrace && guarded cells
  | .argument _ :: cells =>
    (cells.head?.all fun
      | .byte b => !isPlaceholderByte b
      | .argument _ => false) && guarded cells

variable {cells : List Cell}

/-- Behind an argument of a guarded template stands no byte of a placeholder. -/
lemma notMem_placeholder_of_head? {i : Nat} (h : guarded (.argument i :: cells) = true)
    (value : Nat → Bytes) (j : Nat) :
    ∀ b ∈ (cells.flatMap (text value)).head?, b ∉ placeholder j := by
  rw [guarded, Bool.and_eq_true] at h
  cases cells with
  | nil =>
    intro b hb
    simp at hb
  | cons cell cells =>
    cases cell with
    | argument k => simp at h
    | byte c =>
      intro b hb hmem
      obtain rfl : c = b := by simpa [text] using hb
      simp [isPlaceholderByte_of_mem hmem] at h

/-- An argument is put into the values of the other ones. -/
lemma substitute_flatMap (h : guarded cells = true) (i : Nat) (arg : Bytes)
    (value : Nat → Bytes) :
    substitute (placeholder i) arg (cells.flatMap (text value)) =
      cells.flatMap (text fun j => substitute (placeholder i) arg (value j)) := by
  induction cells with
  | nil => exact substitute_nil _ _
  | cons cell cells ih =>
    cases cell with
    | byte b =>
      rw [guarded, Bool.and_eq_true, bne_iff_ne] at h
      rw [List.flatMap_cons, List.flatMap_cons, ← ih h.2]
      exact substitute_cons (not_prefix_placeholder h.1 i _) arg
    | argument j =>
      have hbehind := notMem_placeholder_of_head? h value i
      rw [guarded, Bool.and_eq_true] at h
      rw [List.flatMap_cons, List.flatMap_cons, ← ih h.2]
      exact substitute_append (placeholder_ne_nil i) hbehind arg (value j)

/-- In a text cut into cells the placeholders are filled cell by cell. -/
lemma fillFrom_flatMap (h : guarded cells = true) (i : Nat) (args : List Bytes)
    (value : Nat → Bytes) :
    fillFrom i args (cells.flatMap (text value)) =
      cells.flatMap (text fun j => fillFrom i args (value j)) := by
  induction args generalizing i value with
  | nil => rfl
  | cons arg args ih =>
    rw [fillFrom, substitute_flatMap h, ih]
    rfl

/-- In a text cut into cells all placeholders are filled at once. -/
lemma fillOnce_flatMap (h : guarded cells = true) (args : List Bytes) :
    fillOnce args (cells.flatMap (text placeholder)) =
      cells.flatMap (text fun i => args[i]?.getD (placeholder i)) := by
  induction cells with
  | nil => rw [List.flatMap_nil, List.flatMap_nil, fillOnce]
  | cons cell cells ih =>
    cases cell with
    | byte b =>
      rw [guarded, Bool.and_eq_true, bne_iff_ne] at h
      rw [List.flatMap_cons, List.flatMap_cons, ← ih h.2]
      exact fillOnce_append_of_notMem args (by simpa [text] using h.1.symm) _
    | argument i =>
      rw [guarded, Bool.and_eq_true] at h
      rw [List.flatMap_cons, List.flatMap_cons, ← ih h.2]
      exact fillOnce_placeholder_append args i _

/-- The placeholder of an argument that a template mentions stands in it. -/
lemma placeholder_infix_of_mem {i : Nat} (h : .argument i ∈ cells) :
    placeholder i <:+: cells.flatMap (text placeholder) := by
  obtain ⟨front, rest, rfl⟩ := List.append_of_mem h
  rw [List.flatMap_append, List.flatMap_cons]
  exact ⟨front.flatMap (text placeholder), rest.flatMap (text placeholder), by simp [text]⟩

end Cell

section Template

open Cell (literal argument)

/-- The parts of the template of a code. -/
def Code.cells : Code → List Cell
  | invalidUtf8 =>
    literal "source is not valid UTF-8 (offset " ++ argument 0 :: literal ", byte 0x"
      ++ argument 1 :: literal ")"
  | invalidToken => literal "invalid token '" ++ argument 0 :: literal "'"
  | invalidSource => literal "invalid source: minification aborted"
  | sourceTooLarge =>
    literal "source exceeds the maximum size of " ++ argument 0 :: literal " bytes"
  | cannotOpenFile => literal "cannot read '" ++ argument 0 :: literal "': " ++ [argument 1]
  | other _ => literal "unknown diagnostic"

end Template

/-- Every template is guarded. -/
lemma Code.template_eq (code : Code) :
    code.template = code.cells.flatMap (Cell.text placeholder) ∧
      Cell.guarded code.cells = true := by
  cases code with
  | invalidUtf8 | invalidToken | invalidSource | sourceTooLarge | cannotOpenFile =>
    decide +kernel
  | other number =>
    refine ⟨?_, ?_⟩
    · rfl
    · rfl

/-! ### Result -/

/-- The message of a diagnostic with any arguments.  Every placeholder in its template is replaced
by its argument with the later arguments put in, all at once.  If no argument that the template
mentions holds the placeholder of a later argument, every placeholder is replaced by its argument as
it is. -/
theorem message_eq_fillOnce (d : Diagnostic) :
    d.message = fillOnce (settleFrom 0 d.args) d.code.template ∧
      ((∀ i arg, placeholder i <:+: d.code.template → d.args[i]? = some arg →
          ∀ j, i < j → j < d.args.length → ¬placeholder j <:+: arg) →
        d.message = fillOnce d.args d.code.template) := by
  obtain ⟨htemplate, hguarded⟩ := d.code.template_eq
  have hmessage : d.message = d.code.cells.flatMap
      (Cell.text fun i => (settleFrom 0 d.args)[i]?.getD (placeholder i)) := by
    rw [Diagnostic.message, htemplate, Cell.fillFrom_flatMap hguarded]
    refine List.flatMap_congr fun cell _ => ?_
    cases cell with
    | byte b => rfl
    | argument i =>
      have hfill := fillFrom_placeholder 0 i d.args
      rwa [Nat.zero_add] at hfill
  refine ⟨?_, fun hlater => ?_⟩
  · rw [hmessage, htemplate, Cell.fillOnce_flatMap hguarded]
  · rw [hmessage, htemplate, Cell.fillOnce_flatMap hguarded]
    refine List.flatMap_congr fun cell hcell => ?_
    cases cell with
    | byte b => rfl
    | argument i =>
      have hmentioned : placeholder i <:+: d.code.template := by
        rw [htemplate]
        exact Cell.placeholder_infix_of_mem hcell
      rw [Cell.text, Cell.text, getElem?_settleFrom]
      cases harg : d.args[i]? with
      | none => rfl
      | some arg =>
        have hi := (List.getElem?_eq_some_iff.1 harg).1
        refine fillFrom_eq_self fun j hij hj => ?_
        rw [List.length_drop] at hj
        exact hlater i arg hmentioned harg j (by omega) (by omega)

/-- A path with its own placeholder in it is shown as it is. -/
theorem message_eq_fillOnce_of_own_placeholder :
    Diagnostic.message ⟨.fatal, .cannotOpenFile, ⟨0, 0, 0⟩,
        [ascii "a\x7b0\x7d.zig", ascii "is a directory"]⟩ =
      ascii "cannot read 'a\x7b0\x7d.zig': is a directory" := by
  let d : Diagnostic := ⟨.fatal, .cannotOpenFile, ⟨0, 0, 0⟩,
    [ascii "a\x7b0\x7d.zig", ascii "is a directory"]⟩
  have hlater : ∀ i arg, placeholder i <:+: d.code.template → d.args[i]? = some arg →
      ∀ j, i < j → j < d.args.length → ¬placeholder j <:+: arg := by
    intro i arg _ harg j hij hj
    have hlength : d.args.length = 2 := rfl
    obtain rfl : i = 0 := by omega
    obtain rfl : j = 1 := by omega
    obtain rfl : ascii "a\x7b0\x7d.zig" = arg := Option.some.inj harg
    decide +kernel
  have hfill : fillOnce d.args d.code.template =
      ascii "cannot read 'a\x7b0\x7d.zig': is a directory" := by
    decide +kernel
  exact ((message_eq_fillOnce d).2 hlater).trans hfill

/-- A path that reads as the placeholder of the reason is not shown: the reason is shown twice. -/
theorem message_ne_fillOnce :
    let d : Diagnostic := ⟨.fatal, .cannotOpenFile, ⟨0, 0, 0⟩,
      [ascii "\x7b1\x7d", ascii "cannot open file: No such file or directory"]⟩
    fillOnce d.args d.code.template =
        ascii "cannot read '\x7b1\x7d': cannot open file: No such file or directory" ∧
      d.message = ascii ("cannot read 'cannot open file: No such file or directory': " ++
        "cannot open file: No such file or directory") ∧
      d.message ≠ fillOnce d.args d.code.template := by
  decide +kernel

end ZigGolf
