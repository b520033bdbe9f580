import ZigGolf.Bytes.Iteration
import ZigGolf.Diagnostic.Basic

/-!
# Messages

The message of a diagnostic is the template of its code with the arguments put in.  A placeholder
is the number of an argument in braces.  The arguments are put in one after the other, each
throughout the text as it then stands, so a placeholder that an argument brings in is filled by a
later argument.
-/

namespace ZigGolf

/-- Splits the first byte off a text, replaced by `value` together with the bytes after it if the
text starts with `key`. -/
def substituteStep (key value : Bytes) : Bytes → Option (Bytes × Bytes)
  | [] => none
  | b :: rest =>
    if key.isPrefixOf (b :: rest) then some (value, rest.drop (key.length - 1))
    else some ([b], rest)

/-- At least one byte is split off, also where the key is empty. -/
theorem substituteStep_shrinks {key value s t rest : Bytes}
    (h : substituteStep key value s = some (t, rest)) : rest.length < s.length := by
  unfold substituteStep at h
  split at h
  · simp at h
  · split at h
    · obtain ⟨_, rfl⟩ := Prod.mk.inj (Option.some.inj h)
      exact Nat.lt_succ_of_le (List.drop_sublist _ _).length_le
    · obtain ⟨_, rfl⟩ := Prod.mk.inj (Option.some.inj h)
      exact Nat.lt_succ_self _

/-- Replaces every occurrence of `key` by `value`, from left to right.  What has been put in is not
looked at again. -/
def substitute (key value s : Bytes) : Bytes :=
  (unroll List.length (substituteStep key value) substituteStep_shrinks s).1.flatten

/-- The text that stands for an argument in a template. -/
def placeholder (i : Nat) : Bytes := [0x7B] ++ decimal i ++ [0x7D]

/-- Puts arguments into a template, from number `i` on. -/
def fillFrom (i : Nat) : List Bytes → Bytes → Bytes
  | [], text => text
  | arg :: args, text => fillFrom (i + 1) args (substitute (placeholder i) arg text)

namespace Code

/-- The message of a code, with placeholders for what it mentions. -/
def template : Code → Bytes
  | invalidUtf8 => ascii "source is not valid UTF-8 (offset \x7b0\x7d, byte 0x\x7b1\x7d)"
  | invalidToken => ascii "invalid token '\x7b0\x7d'"
  | invalidSource => ascii "invalid source: minification aborted"
  | sourceTooLarge => ascii "source exceeds the maximum size of \x7b0\x7d bytes"
  | cannotOpenFile => ascii "cannot read '\x7b0\x7d': \x7b1\x7d"
  | other _ => ascii "unknown diagnostic"

end Code

/-- The message of a diagnostic. -/
def Diagnostic.message (d : Diagnostic) : Bytes := fillFrom 0 d.args d.code.template

end ZigGolf
