import Mathlib.Data.Nat.Digits.Defs
import Mathlib.Data.List.Induction
import Mathlib.Data.List.TakeWhile
import ZigGolf.Tool.Settings

/-!
# The order of options

Arguments are read in groups: an option with the value that it takes, or an input.  Where one group
ends and the next starts is only known by reading from the left, since the value of an option may
look like another option.  Read so, a group changes what its kind is about and leaves everything
else alone (`SettingsReader.read_args_append`).  The last group of a kind therefore decides, groups
of different kinds can change places, and a second input ends the reading wherever it stands
(`read_interleaved`).
-/

namespace ZigGolf

/-! ### Groups -/

/-- The texts that can be the value of an argument: a zero byte would end it. -/
abbrev ArgumentValue := { text : Bytes // (0 : UInt8) ∉ text }

/-- Decimal digits, at least one, of a number below a bound. -/
structure BoundedNumber (bound : Nat) where
  digits : Bytes
  ne_nil : digits ≠ []
  isDigit_of_mem : ∀ b ∈ digits, isDigit b = true
  /-- The first digit counts most. -/
  lt_bound : Nat.ofDigits 10 (digits.reverse.map fun b => b.toNat - 0x30) < bound

/-- The number that the digits write. -/
def BoundedNumber.value {bound : Nat} (n : BoundedNumber bound) : Nat :=
  Nat.ofDigits 10 (n.digits.reverse.map fun b => b.toNat - 0x30)

/-- A complete option, with its value if it takes one, or an input. -/
inductive ArgumentGroup where
  | ptr64
  | listTokens
  | output (path : ArgumentValue)
  | context (lines : BoundedNumber (2 ^ 32))
  | maxSize (size : BoundedNumber (2 ^ 64))
  | file (path : ArgumentValue)
  | positional (path : ArgumentValue)
      (isInput : path.1 = ascii "-" ∨ path.1.head? ≠ some (byte '-'))

/-- What a group of arguments is about. -/
inductive GroupKind where
  | ptr64
  | action
  | output
  | context
  | maxSize
  | input
  deriving DecidableEq

/-- What is asked for by a group of a kind. -/
abbrev GroupKind.Value : GroupKind → Type
  | ptr64 => Bool
  | action => Action
  | output => Bytes
  | context => UInt32
  | maxSize => UInt64
  | input => Bytes

namespace ArgumentGroup

/-- What a group is about; an input is one whether its option is written out or not. -/
def kind : ArgumentGroup → GroupKind
  | ptr64 => .ptr64
  | listTokens => .action
  | output _ => .output
  | context _ => .context
  | maxSize _ => .maxSize
  | file _ | positional .. => .input

/-- The arguments of a group. -/
def args : ArgumentGroup → List Bytes
  | ptr64 => [ascii "--ptr64"]
  | listTokens => [ascii "--dump-tokens"]
  | output path => [ascii "-o", path]
  | context lines => [ascii "--context", lines.digits]
  | maxSize size => [ascii "-fmax-source-size=" ++ size.digits]
  | file path => [ascii "--file", path]
  | positional path _ => [path]

/-! ### What groups ask for -/

/-- What a group asks for in the settings that its kind is about.  A limit of zero bytes means one
byte, and a dash names no file: the standard input is read, as if no input were given. -/
def asked? : (k : GroupKind) → ArgumentGroup → Option k.Value
  | .ptr64, ptr64 => some true
  | .action, listTokens => some Action.listTokens
  | .output, output path => some path.1
  | .context, context lines => some (UInt32.ofNat lines.value)
  | .maxSize, maxSize size => some (UInt64.ofNat (max size.value 1))
  | .input, file path => if path.1 = ascii "-" then none else some path.1
  | .input, positional path _ => if path.1 = ascii "-" then none else some path.1
  | _, _ => none

/-- A group asks for nothing but what its kind is about. -/
lemma asked?_eq_none {k : GroupKind} {g : ArgumentGroup} (h : g.kind ≠ k) : g.asked? k = none := by
  unfold asked?
  split
  case h_8 => rfl
  all_goals exact absurd rfl h

end ArgumentGroup

open ArgumentGroup

/-- The groups of one kind, in their order. -/
def ofKind (k : GroupKind) (gs : List ArgumentGroup) : List ArgumentGroup :=
  gs.filter fun g => g.kind = k

/-- What the last group of a kind asks for, or a default if none asks for anything. -/
def lastAsked (k : GroupKind) (default : k.Value) (gs : List ArgumentGroup) : k.Value :=
  (gs.filterMap (asked? k)).getLastD default

/-- The settings that groups ask for: for each kind the last group decides. -/
def requested (gs : List ArgumentGroup) : Settings where
  action := lastAsked .action .minify gs
  input := lastAsked .input [] gs
  output := lastAsked .output [] gs
  ptr64 := lastAsked .ptr64 false gs
  context := lastAsked .context 2 gs
  maxSize := lastAsked .maxSize 1048576 gs

variable {gs hs : List ArgumentGroup} {g : ArgumentGroup}

/-- Settings after one more group. -/
def Settings.update (s : Settings) (g : ArgumentGroup) : Settings where
  action := (g.asked? .action).getD s.action
  input := (g.asked? .input).getD s.input
  output := (g.asked? .output).getD s.output
  ptr64 := (g.asked? .ptr64).getD s.ptr64
  context := (g.asked? .context).getD s.context
  maxSize := (g.asked? .maxSize).getD s.maxSize

/-- The last group decides if it asks for anything at all. -/
lemma lastAsked_concat (k : GroupKind) (default : k.Value) (gs : List ArgumentGroup)
    (g : ArgumentGroup) :
    lastAsked k default (gs ++ [g]) = (g.asked? k).getD (lastAsked k default gs) := by
  unfold lastAsked
  cases h : g.asked? k with
  | none => simp [h]
  | some a => simp [h]

/-- Groups that are read one after the other leave what they ask for together. -/
lemma foldl_update (gs : List ArgumentGroup) : gs.foldl Settings.update {} = requested gs := by
  induction gs using List.reverseRecOn with
  | nil => rfl
  | append_singleton gs g ih =>
    rw [List.foldl_append, List.foldl_cons, List.foldl_nil, ih]
    simp only [requested, lastAsked_concat, Settings.update]

/-- Groups of other kinds have no part in what the groups of a kind ask for. -/
lemma filterMap_ofKind (k : GroupKind) (gs : List ArgumentGroup) :
    (ofKind k gs).filterMap (asked? k) = gs.filterMap (asked? k) := by
  unfold ofKind
  induction gs with
  | nil => rfl
  | cons g gs ih =>
    by_cases hg : g.kind = k
    · rw [List.filter_cons_of_pos (by simpa using hg), List.filterMap_cons, List.filterMap_cons, ih]
    · rw [List.filter_cons_of_neg (by simpa using hg), ih,
        List.filterMap_cons_none (asked?_eq_none hg)]

/-- Groups of different kinds can change places. -/
lemma requested_congr (h : ∀ k, ofKind k gs = ofKind k hs) : requested gs = requested hs := by
  have hlast : ∀ k default, lastAsked k default gs = lastAsked k default hs := by
    intro k default
    rw [lastAsked, lastAsked, ← filterMap_ofKind k gs, ← filterMap_ofKind k hs, h k]
  simp only [requested, hlast]

/-! ### Reading a group -/

/-- A number is read digit by digit, the first being the highest. -/
lemma decimalValue_eq (digits : Bytes) :
    decimalValue digits = Nat.ofDigits 10 (digits.reverse.map fun b => b.toNat - 0x30) := by
  rw [decimalValue, Nat.ofDigits_eq_foldr, List.foldr_map, List.foldr_reverse]
  simp only [Nat.add_comm, Nat.cast_id]

/-- The digits of a number up to a largest one are read as that number. -/
lemma number?_digits {max : Nat} (n : BoundedNumber (max + 1)) :
    number? max n.digits = some n.value := by
  have hall : n.digits.all isDigit = true := List.all_eq_true.2 n.isDigit_of_mem
  have hle : decimalValue n.digits ≤ max := by
    rw [decimalValue_eq]
    exact Nat.le_of_lt_succ n.lt_bound
  rw [number?, if_pos ⟨n.ne_nil, hall, hle⟩, decimalValue_eq]
  rfl

namespace SettingsReader

variable {r : SettingsReader} {rest : List Bytes}

/-- What has been read after one more group. -/
def take (r : SettingsReader) (g : ArgumentGroup) : SettingsReader where
  settings := r.settings.update g
  inputGiven := g.kind = .input || r.inputGiven

/-- How the reading goes on from an argument, or from an option with its value. -/
def goOn (r : SettingsReader) (taken : Except UsageError SettingsReader) (rest : List Bytes) :
    Settings × Option UsageError :=
  match taken with
  | .error mistake => (r.settings, some mistake)
  | .ok r => r.read rest

/-- An argument that stands alone is added, and reading goes on behind it. -/
lemma read_argument {arg : Bytes} (hclosing : closingAction? arg = none)
    (hoption : ValueOption.ofArgument? arg = none) (r : SettingsReader) (rest : List Bytes) :
    r.read (arg :: rest) = r.goOn (r.addArgument arg) rest := by
  rw [SettingsReader.read, hclosing, hoption]
  rfl

/-- An option that has its value behind it is added with that value. -/
lemma read_value {arg : Bytes} {o : ValueOption} (hclosing : closingAction? arg = none)
    (hoption : ValueOption.ofArgument? arg = some o) (r : SettingsReader) (value : Bytes)
    (rest : List Bytes) :
    r.read (arg :: value :: rest) = r.goOn (r.addValue o value) rest := by
  rw [SettingsReader.read, hclosing, hoption]
  rfl

/-- The options that are written in one way only. -/
def fixedOptions : List Bytes :=
  ["--help", "-h", "--version", "--ptr64", "--dump-tokens", "-o", "--context", "--file"].map ascii

/-- Any other argument is taken by itself: it limits the size, or it is an input or a mistake. -/
lemma read_of_notMem {arg : Bytes} (h : arg ∉ fixedOptions) (r : SettingsReader)
    (rest : List Bytes) :
    r.read (arg :: rest) = r.goOn (r.addArgument arg) rest ∧
      arg ≠ ascii "--ptr64" ∧ arg ≠ ascii "--dump-tokens" := by
  simp only [fixedOptions, List.map_cons, List.map_nil, List.mem_cons, List.not_mem_nil, or_false,
    not_or] at h
  obtain ⟨hhelp, hh, hversion, hptr64, hlist, ho, hcontext, hfile⟩ := h
  refine ⟨read_argument ?_ ?_ r rest, hptr64, hlist⟩
  · simp [closingAction?, hhelp, hh, hversion]
  · simp [ValueOption.ofArgument?, ho, hcontext, hfile]

/-- A text that does not start as options do is an input. -/
lemma read_positional {path : Bytes} (h : path = ascii "-" ∨ path.head? ≠ some (byte '-'))
    (r : SettingsReader) (rest : List Bytes) :
    r.read (path :: rest) = r.goOn (r.addInput path) rest := by
  rcases h with rfl | hhead
  · exact read_argument (by decide) (by decide) r rest
  · have hdash : ∀ option ∈ fixedOptions, option.head? = some (byte '-') := by decide
    obtain ⟨hread, hptr64, hlist⟩ := read_of_notMem (fun hmem => hhead (hdash path hmem)) r rest
    have hkey : ¬ maxSizeKey.isPrefixOf path = true := by
      rw [List.isPrefixOf_iff_prefix]
      rintro ⟨digits, rfl⟩
      exact hhead rfl
    rw [hread, addArgument, if_neg hptr64, if_neg hlist, if_neg hkey, if_neg fun h => hhead h.1]

/-- The digits behind the name of the option are its value. -/
lemma read_maxSize (size : BoundedNumber (2 ^ 64)) (r : SettingsReader) (rest : List Bytes) :
    r.read ((ascii "-fmax-source-size=" ++ size.digits) :: rest) =
      (r.take (.maxSize size)).read rest := by
  have hfixed : ∀ option ∈ fixedOptions, ¬ maxSizeKey.isPrefixOf option = true := by decide
  have hkey : maxSizeKey.isPrefixOf (ascii "-fmax-source-size=" ++ size.digits) = true :=
    List.isPrefixOf_iff_prefix.2 (List.prefix_append _ _)
  obtain ⟨hread, hptr64, hlist⟩ := read_of_notMem (fun hmem => hfixed _ hmem hkey) r rest
  have hdrop : (ascii "-fmax-source-size=" ++ size.digits).drop maxSizeKey.length = size.digits :=
    List.drop_left
  have hnumber : number? 0xFFFFFFFFFFFFFFFF size.digits = some size.value := number?_digits size
  rw [hread, addArgument, if_neg hptr64, if_neg hlist, if_pos hkey, hdrop, hnumber]
  rfl

/-- An input is taken unless one was given before. -/
lemma addInput_eq (r : SettingsReader) (path : ArgumentValue) :
    r.addInput path = if r.inputGiven then .error .secondInput else .ok (r.take (.file path)) := by
  unfold addInput
  cases r.inputGiven with
  | true => rfl
  | false =>
    simp only [Bool.false_eq_true, ↓reduceIte, take, Settings.update, asked?, change]
    split <;> rfl

/-- A second input ends the reading; a first one is taken. -/
lemma goOn_addInput (r : SettingsReader) (path : ArgumentValue) (rest : List Bytes) :
    r.goOn (r.addInput path) rest =
      if r.inputGiven then (r.settings, some .secondInput)
      else (r.take (.file path)).read rest := by
  rw [addInput_eq]
  split <;> rfl

/-- A group changes what its kind is about and nothing else, and the reading goes on behind it.
Only a second input ends the reading. -/
lemma read_args_append (r : SettingsReader) (g : ArgumentGroup) (rest : List Bytes) :
    r.read (g.args ++ rest) =
      if g.kind = .input ∧ r.inputGiven = true then (r.settings, some .secondInput)
      else (r.take g).read rest := by
  cases g with
  | ptr64 => exact read_argument (by decide) (by decide) r rest
  | listTokens => exact read_argument (by decide) (by decide) r rest
  | output path =>
    rw [args, List.cons_append, List.singleton_append,
      read_value (o := .output) (by decide) (by decide)]
    rfl
  | context lines =>
    have hnumber : number? 0xFFFFFFFF lines.digits = some lines.value := number?_digits lines
    rw [args, List.cons_append, List.singleton_append,
      read_value (o := .context) (by decide) (by decide), addValue, hnumber]
    rfl
  | maxSize size => exact read_maxSize size r rest
  | file path =>
    rw [args, List.cons_append, List.singleton_append,
      read_value (o := .file) (by decide) (by decide), addValue, goOn_addInput]
    simp [kind]
  | positional path hpath =>
    have htake : r.take (.positional path hpath) = r.take (.file path) := rfl
    rw [args, List.singleton_append, read_positional hpath, goOn_addInput, htake]
    simp [kind]

/-! ### Reading groups -/

/-- Groups are all read if they bring no second input. -/
lemma read_flatMap_append (h : (ofKind .input gs).length + r.inputGiven.toNat ≤ 1) :
    r.read (gs.flatMap args ++ rest) = (gs.foldl take r).read rest := by
  induction gs generalizing r with
  | nil => rfl
  | cons g gs ih =>
    rw [List.flatMap_cons, List.append_assoc, read_args_append, List.foldl_cons]
    unfold ofKind at h ih
    by_cases hg : g.kind = .input
    · rw [List.filter_cons_of_pos (by simpa using hg), List.length_cons] at h
      have hgiven : r.inputGiven = false := by
        rw [← Bool.toNat_eq_zero]
        omega
      have hgiven' : (r.take g).inputGiven = true := by simp [take, hg]
      rw [if_neg (by simp [hgiven]), ih (by rw [hgiven', Bool.toNat_true]; omega)]
    · rw [List.filter_cons_of_neg (by simpa using hg)] at h
      rw [if_neg fun hsecond => hg hsecond.1, ih (by simpa [take, hg] using h)]

/-- Taking groups updates the settings by each of them in turn. -/
lemma settings_foldl_take (gs : List ArgumentGroup) (r : SettingsReader) :
    (gs.foldl take r).settings = gs.foldl Settings.update r.settings := by
  induction gs generalizing r with
  | nil => rfl
  | cons g gs ih => rw [List.foldl_cons, List.foldl_cons, ih]; rfl

/-- An input has been given if one of the groups is an input. -/
lemma inputGiven_foldl_take (gs : List ArgumentGroup) (r : SettingsReader) :
    (gs.foldl take r).inputGiven = (!(ofKind .input gs).isEmpty || r.inputGiven) := by
  induction gs generalizing r with
  | nil => rfl
  | cons g gs ih =>
    rw [List.foldl_cons, ih]
    by_cases hg : g.kind = .input
    · simp [ofKind, take, hg]
    · simp [ofKind, take, hg]

end SettingsReader

/-- No argument of a group is cut short. -/
lemma map_argumentText_args (g : ArgumentGroup) : g.args.map argumentText = g.args := by
  have hword : ∀ {text : Bytes}, (0 : UInt8) ∉ text → argumentText text = text := by
    intro text h
    rw [argumentText, List.takeWhile_eq_self_iff]
    rintro b hb
    simpa using fun hzero : b = 0 => h (hzero ▸ hb)
  have hdigits : ∀ {bound : Nat} (n : BoundedNumber bound), (0 : UInt8) ∉ n.digits :=
    fun n hmem => absurd (n.isDigit_of_mem 0 hmem) (by decide)
  have hargs : ∀ arg ∈ g.args, (0 : UInt8) ∉ arg := by
    cases g with
    | ptr64 => decide
    | listTokens => decide
    | output path => simpa [args] using ⟨by decide, path.2⟩
    | context lines => simpa [args] using ⟨by decide, hdigits lines⟩
    | maxSize size => simpa [args] using ⟨by decide, hdigits size⟩
    | file path => simpa [args] using ⟨by decide, path.2⟩
    | positional path _ => simpa [args] using path.2
  exact (List.map_congr_left fun arg harg => hword (hargs arg harg)).trans (List.map_id _)

/-- The arguments of groups are read as they stand. -/
lemma read_flatMap (gs : List ArgumentGroup) (rest : List Bytes) :
    Settings.read (gs.flatMap args ++ rest) =
      SettingsReader.read {} (gs.flatMap args ++ rest.map argumentText) := by
  have hargs : (gs.flatMap args).map argumentText = gs.flatMap args := by
    simp only [List.map_flatMap, map_argumentText_args]
  rw [Settings.read, List.map_append, hargs]

/-- Groups with at most one input among them are read to the end. -/
lemma read_groups (h : (ofKind .input gs).length ≤ 1) :
    Settings.read (gs.flatMap args) = (requested gs, none) := by
  have hread := read_flatMap gs []
  rw [List.append_nil, List.map_nil, SettingsReader.read_flatMap_append (r := {}) h] at hread
  rw [hread, SettingsReader.read, SettingsReader.settings_foldl_take, foldl_update]

/-- A second input ends the reading, whatever stands behind it. -/
lemma read_second_input (h : (ofKind .input gs).length = 1) (hg : g.kind = .input)
    (rest : List Bytes) :
    Settings.read (gs.flatMap args ++ (g.args ++ rest)) = (requested gs, some .secondInput) := by
  have hgiven : (gs.foldl SettingsReader.take {}).inputGiven = true := by
    have hne : (ofKind .input gs).isEmpty = false := by
      rw [List.isEmpty_eq_false_iff, ← List.length_pos_iff]
      omega
    rw [SettingsReader.inputGiven_foldl_take, hne]
    rfl
  rw [read_flatMap, List.map_append, map_argumentText_args,
    SettingsReader.read_flatMap_append (r := {}) h.le, SettingsReader.read_args_append,
    if_pos ⟨hg, hgiven⟩, SettingsReader.settings_foldl_take, foldl_update]

/-- Where an input is put in beside another, one of the two is the second. -/
lemma exists_second_input {before after : List ArgumentGroup}
    (h : (ofKind .input (before ++ after)).length = 1) (hg : g.kind = .input) :
    ∃ front second back, before ++ g :: after = front ++ second :: back ∧
      second.kind = .input ∧ (ofKind .input front).length = 1 := by
  unfold ofKind at h ⊢
  rw [List.filter_append] at h
  cases hbefore : before.filter (fun g => g.kind = .input) with
  | cons other others =>
    rw [hbefore] at h
    have hnone : others = [] := by
      rw [← List.length_eq_zero_iff]
      simp only [List.length_append, List.length_cons] at h
      omega
    exact ⟨before, g, after, rfl, hg, by rw [hbefore, hnone]; rfl⟩
  | nil =>
    rw [hbefore, List.nil_append, List.length_eq_one_iff] at h
    obtain ⟨other, hother⟩ := h
    obtain ⟨between, back, rfl, hbetween, hkind, -⟩ := List.filter_eq_cons_iff.1 hother
    refine ⟨before ++ g :: between, other, back, by simp, by simpa using hkind, ?_⟩
    rw [List.filter_append, hbefore, List.filter_cons_of_pos (by simpa using hg),
      List.filter_eq_nil_iff.2 hbetween]
    rfl

/-! ### Result -/

/-- Groups of arguments with at most one input among them are read without a mistake, and for each
kind the last group decides.  So groups of different kinds can change places.  If there is an input
and another is put in anywhere, the reading ends with a mistake at the second of the two: the
settings are those of the groups in front of it, whatever arguments stand behind it. -/
theorem read_interleaved {gs : List ArgumentGroup} (hinput : (ofKind .input gs).length ≤ 1) :
    Settings.read (gs.flatMap args) = (requested gs, none) ∧
      (∀ hs, (∀ k, ofKind k hs = ofKind k gs) →
        Settings.read (hs.flatMap args) = Settings.read (gs.flatMap args)) ∧
      ∀ before after g, gs = before ++ after → ofKind .input gs ≠ [] → g.kind = .input →
        ∃ front second back, before ++ g :: after = front ++ second :: back ∧
          second.kind = .input ∧ (ofKind .input front).length = 1 ∧
          Settings.read ((before ++ g :: after).flatMap args) =
            (requested front, some .secondInput) ∧
          ∀ rest : List Bytes, Settings.read (front.flatMap args ++ (second.args ++ rest)) =
            (requested front, some .secondInput) := by
  refine ⟨read_groups hinput, fun hs hkinds => ?_, ?_⟩
  · rw [read_groups hinput, read_groups (hkinds .input ▸ hinput), requested_congr hkinds]
  · rintro before after g rfl hne hg
    have hpos := List.length_pos_iff.2 hne
    obtain ⟨front, second, back, hsplit, hsecond, hfront⟩ :=
      exists_second_input (Nat.le_antisymm hinput hpos) hg
    have hends := read_second_input hfront hsecond
    refine ⟨front, second, back, hsplit, hsecond, hfront, ?_, hends⟩
    rw [hsplit, List.flatMap_append, List.flatMap_cons]
    exact hends (back.flatMap args)

/-- Output and input are spelled like options, and the last of two numbers counts.  If a dash is put
in, too, there are two inputs. -/
theorem read_interleaved_of_lookalikes :
    Settings.read
        (["--file", "-o", "--context", "1", "-o", "--help", "--context", "07"].map ascii) =
        ({ input := ascii "-o", output := ascii "--help", context := 7 }, none) ∧
      (Settings.read
        (["-o", "--help", "-", "--context", "1", "--file", "-o", "--context", "07"].map ascii)).2 =
        some .secondInput := by
  let file : ArgumentGroup := .file ⟨ascii "-o", by decide⟩
  let output : ArgumentGroup := .output ⟨ascii "--help", by decide⟩
  let one : ArgumentGroup := .context ⟨ascii "1", by decide, List.all_eq_true.1 rfl, by decide⟩
  let seven : ArgumentGroup := .context ⟨ascii "07", by decide, List.all_eq_true.1 rfl, by decide⟩
  obtain ⟨hread, hkinds, hsecond⟩ := @read_interleaved [output, one, file, seven] (Nat.le_refl 1)
  constructor
  · have hswapped := hkinds [file, one, output, seven] fun k => by cases k <;> rfl
    exact hswapped.trans hread
  · obtain ⟨front, second, back, -, -, -, hends, -⟩ :=
      hsecond [output] [one, file, seven] (.positional ⟨ascii "-", by decide⟩ (.inl rfl)) rfl
        (by simp [ofKind, file, kind]) rfl
    exact congrArg Prod.snd hends

end ZigGolf
