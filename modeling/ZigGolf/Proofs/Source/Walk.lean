import ZigGolf.Proofs.Source.Width

/-!
# Walking over a text

The columns of a text are counted by a loop over offsets, which are words: at each offset a code
point is read by the high bits of its bytes, and the loop goes on behind it.  `Utf8.readAt` is that
reading and `Walk` that loop, with the words as they are.  As long as the text leaves room for four
more bytes no offset wraps around, and then they are the reading and the counting of the rest of
the text (`Utf8.readAt_eq`, `Walk.codePointWidths_eq`).

Every reading takes at least one byte and none that the text does not have, so the loop ends.  In
well-formed text it goes from character to character, and takes as many bytes as the first of them
tells (`readings_agree`).
-/

namespace ZigGolf

namespace Utf8

variable {s : Bytes} {b : UInt8} {i : UInt32}

/-! ### Reading at an offset -/

/-- What reading a code point at an offset gives. -/
structure Reading where
  /-- Whether there is one. -/
  succeeded : Bool
  codePoint : UInt32
  /-- The offset at which reading goes on. -/
  next : UInt32

/-- Puts the bits of the next `n` bytes behind the bits read so far; nothing if one of these bytes
continues no sequence. -/
def readBits (s : Bytes) (i : UInt32) : Nat → UInt32 → Option UInt32
  | 0, bits => some bits
  | n + 1, bits =>
    match s[i.toNat]? with
    | some c => if isContinuation c then readBits s (i + 1) n (addBits bits c) else none
    | none => none

/-- Reads the code point at an offset.  If there is none the byte there is replaced. -/
def readAt (s : Bytes) (i : UInt32) : Reading :=
  match s[i.toNat]? with
  | none => ⟨false, 0, i⟩
  | some b =>
    match lead? b with
    | none => ⟨false, replacement, i + 1⟩
    | some (bits, n) =>
      match readBits s (i + 1) n bits with
      | none => ⟨false, replacement, i + 1⟩
      | some cp => ⟨true, cp, i + (n.toUInt32 + 1)⟩

/-- The next place does not wrap around. -/
lemma toNat_add_one {i : UInt32} (h : i.toNat + 1 < 2 ^ 32) : (i + 1).toNat = i.toNat + 1 := by
  rw [UInt32.toNat_add, UInt32.toNat_one, Nat.mod_eq_of_lt h]

/-- If no offset wraps around, the bits are those of a part of the text. -/
lemma readBits_eq {n : Nat} (h : i.toNat + n < 2 ^ 32) (bits : UInt32) :
    readBits s i n bits =
      if ((s.drop i.toNat).take n).length = n ∧ ((s.drop i.toNat).take n).all isContinuation then
        some (((s.drop i.toNat).take n).foldl addBits bits)
      else none := by
  induction n generalizing i bits with
  | zero => simp [readBits]
  | succ n ih =>
    unfold readBits
    split
    · next c hc =>
      obtain ⟨hlt, rfl⟩ := List.getElem?_eq_some_iff.1 hc
      have hi := toNat_add_one (i := i) (by omega)
      rw [ih (by omega), hi, List.drop_eq_getElem_cons hlt, List.take_succ_cons]
      simp only [List.length_cons, Nat.add_right_cancel_iff, List.all_cons, List.foldl_cons,
        Bool.and_eq_true]
      split
      · next hcont => simp only [hcont, true_and]
      · next hcont => rw [if_neg fun h => hcont h.2.1]
    · next hnone =>
      have hdrop : s.drop i.toNat = [] := List.drop_eq_nil_of_le (List.getElem?_eq_none_iff.1 hnone)
      simp [hdrop]

/-- A first byte asks for at most three more. -/
lemma lead?_le {bits : UInt32} {n : Nat} (h : lead? b = some (bits, n)) : n ≤ 3 := by
  unfold lead? at h
  split_ifs at h
  all_goals
    obtain ⟨-, rfl⟩ := Prod.mk.inj (Option.some.inj h)
    decide

/-- No more than three bytes are taken behind the first, and none that is not there. -/
lemma decode_le (b : UInt8) (following : Bytes) :
    (decode b following).2 ≤ 3 ∧ (decode b following).2 ≤ following.length := by
  unfold decode decode?
  split
  · exact ⟨by decide, Nat.zero_le _⟩
  · next bits n hlead =>
    dsimp only
    split
    · next htail =>
      rw [List.length_take] at htail
      exact ⟨lead?_le hlead, by rw [Option.getD_some]; omega⟩
    · exact ⟨by decide, Nat.zero_le _⟩

/-- If the text leaves room for four more bytes, the code point at an offset is read off the rest of
the text. -/
lemma readAt_eq (hlength : s.length < 2 ^ 32 - 4) {following : Bytes}
    (h : s.drop i.toNat = b :: following) :
    (readAt s i).succeeded = (decode? b following).isSome ∧
      (readAt s i).codePoint = (decode b following).1 ∧
      (readAt s i).next.toNat = i.toNat + 1 + (decode b following).2 := by
  have hlt : i.toNat < s.length := by
    rw [← List.drop_eq_nil_iff.not.trans not_le, h]
    simp
  obtain ⟨hb, hfollowing⟩ := List.cons.inj ((List.drop_eq_getElem_cons hlt).symm.trans h)
  have hi := toNat_add_one (i := i) (by omega)
  unfold readAt decode decode?
  rw [List.getElem?_eq_getElem hlt, hb]
  dsimp only
  cases hlead : lead? b with
  | none => exact ⟨rfl, rfl, hi⟩
  | some lead =>
    obtain ⟨bits, n⟩ := lead
    have hn := lead?_le hlead
    dsimp only
    rw [readBits_eq (by omega), hi, hfollowing]
    split_ifs
    · refine ⟨rfl, rfl, ?_⟩
      rw [UInt32.toNat_add, UInt32.toNat_add, Nat.toUInt32, UInt32.toNat_ofNat', UInt32.toNat_one,
        Option.getD_some]
      omega
    · exact ⟨rfl, rfl, hi⟩

/-- Every reading takes between one and four bytes, all of them in the text. -/
lemma readAt_advances (hlength : s.length < 2 ^ 32 - 4) (h : i.toNat < s.length) :
    i.toNat < (readAt s i).next.toNat ∧ (readAt s i).next.toNat ≤ i.toNat + 4 ∧
      (readAt s i).next.toNat ≤ s.length := by
  obtain ⟨-, -, hnext⟩ := readAt_eq hlength (List.drop_eq_getElem_cons h)
  obtain ⟨hthree, hle⟩ := decode_le s[i.toNat] (s.drop (i.toNat + 1))
  rw [List.length_drop] at hle
  omega

/-- Where a character is encoded, its number is read, and reading goes on behind its bytes. -/
lemma readAt_utf8EncodeChar (hlength : s.length < 2 ^ 32 - 4) {c : Char} {r : Bytes}
    (h : s.drop i.toNat = String.utf8EncodeChar c ++ r) :
    (readAt s i).codePoint = c.val ∧ s.drop (readAt s i).next.toNat = r ∧
      ∃ b, s[i.toNat]? = some b ∧ (readAt s i).succeeded = true ∧
        (readAt s i).next.toNat = i.toNat + sequenceLength b := by
  have hsequence := isSequence_iff_inRange.2 (inRange_utf8EncodeChar c)
  obtain ⟨x, t, hbytes⟩ := List.exists_cons_of_ne_nil hsequence.ne_nil
  rw [hbytes] at hsequence
  rw [hbytes, List.cons_append] at h
  obtain ⟨hsucceeded, hcp, hnext⟩ := readAt_eq hlength h
  have hdecode : decode? x (t ++ r) = some (c.val, t.length) := by
    rw [(hsequence.decode?_append r).1, decode?_utf8EncodeChar hbytes]
  rw [decode, hdecode] at hcp hnext
  rw [hdecode] at hsucceeded
  dsimp only [Option.getD_some] at hcp hnext
  have hcount : (readAt s i).next.toNat = i.toNat + (x :: t).length := by
    rw [hnext, List.length_cons]
    omega
  refine ⟨hcp, ?_, x, ?_, hsucceeded, ?_⟩
  · rw [hcount, ← List.drop_drop, h, ← List.cons_append, List.drop_left]
  · rw [← List.head?_drop, h]
    rfl
  · rw [hcount, hsequence.length_eq]

end Utf8

/-! ### The loop -/

/-- The offsets at which a loop reads that goes from one offset up to another, or to the end of the
text. -/
inductive Walk (s : Bytes) (hi : UInt32) : UInt32 → List UInt32 → Prop
  | done {i : UInt32} : ¬(i < hi ∧ i.toNat < s.length) → Walk s hi i []
  | step {i : UInt32} {offsets : List UInt32} : i < hi → i.toNat < s.length →
      Walk s hi (Utf8.readAt s i).next offsets → Walk s hi i (i :: offsets)

variable {s : Bytes} {lo hi : UInt32} {offsets : List UInt32}

/-- The loop ends, after no more readings than there are bytes left. -/
lemma exists_walk (hlength : s.length < 2 ^ 32 - 4) (hi lo : UInt32) :
    ∃ offsets, Walk s hi lo offsets ∧ offsets.length ≤ s.length - lo.toNat := by
  induction hn : s.length - lo.toNat using Nat.strongRecOn generalizing lo with
  | _ n ih =>
    by_cases h : lo < hi ∧ lo.toNat < s.length
    · obtain ⟨hlt, -, hle⟩ := Utf8.readAt_advances hlength h.2
      obtain ⟨offsets, hwalk, hcount⟩ := ih _ (by omega) (Utf8.readAt s lo).next rfl
      refine ⟨lo :: offsets, .step h.1 h.2 hwalk, ?_⟩
      rw [List.length_cons]
      omega
    · exact ⟨[], .done h, Nat.zero_le _⟩

/-- The loop counts the columns of the code points that start between its ends. -/
lemma Walk.codePointWidths_eq (h : Walk s hi lo offsets) (hlength : s.length < 2 ^ 32 - 4) :
    codePointWidths (hi.toNat - lo.toNat) (s.drop lo.toNat) =
      offsets.map fun i => codePointWidth (Utf8.readAt s i).codePoint := by
  induction h with
  | @done i hdone =>
    rw [UInt32.lt_iff_toNat_lt, not_and_or, not_lt, not_lt] at hdone
    rcases hdone with hle | hle
    · rw [Nat.sub_eq_zero_of_le hle, codePointWidths_zero, List.map_nil]
    · rw [List.drop_eq_nil_of_le hle, codePointWidths_nil, List.map_nil]
  | @step i offsets hlt hin _ ih =>
    have hdrop := List.drop_eq_getElem_cons hin
    obtain ⟨-, hcp, hnext⟩ := Utf8.readAt_eq hlength hdrop
    obtain ⟨limit, hlimit⟩ : ∃ limit, hi.toNat - i.toNat = limit + 1 :=
      ⟨hi.toNat - i.toNat - 1, by rw [UInt32.lt_iff_toNat_lt] at hlt; omega⟩
    have hrest : hi.toNat - (Utf8.readAt s i).next.toNat =
        limit - (Utf8.decode s[i.toNat] (s.drop (i.toNat + 1))).2 := by omega
    rw [hlimit, hdrop, codePointWidths_cons, List.drop_drop, ← hnext, ← hrest, ih, List.map_cons,
      hcp]

/-- In the encoding of some characters the loop goes from character to character, and takes as many
bytes as the first byte of each tells. -/
lemma Walk.of_flatMap (h : Walk s hi lo offsets) (hlength : s.length < 2 ^ 32 - 4)
    (hhi : hi.toNat = s.length) {text : List Char}
    (htext : s.drop lo.toNat = text.flatMap String.utf8EncodeChar) :
    offsets.map (fun i => (Utf8.readAt s i).codePoint) = text.map Char.val ∧
      ∀ i ∈ offsets, ∃ b, s[i.toNat]? = some b ∧ (Utf8.readAt s i).succeeded = true ∧
        (Utf8.readAt s i).next.toNat = i.toNat + Utf8.sequenceLength b := by
  induction h generalizing text with
  | @done i hdone =>
    have hle : s.length ≤ i.toNat := by
      rw [UInt32.lt_iff_toNat_lt, hhi, and_self, not_lt] at hdone
      exact hdone
    rw [List.drop_eq_nil_of_le hle] at htext
    cases text with
    | nil => exact ⟨rfl, by simp⟩
    | cons c text =>
      exact absurd (List.append_eq_nil_iff.1 htext.symm).1 (String.utf8EncodeChar_ne_nil)
  | @step i offsets hlt hin _ ih =>
    cases text with
    | nil => exact absurd (List.drop_eq_nil_iff.1 htext) (by omega)
    | cons c text =>
      obtain ⟨hcp, hrest, hchar⟩ := Utf8.readAt_utf8EncodeChar hlength htext
      obtain ⟨hcps, hoffsets⟩ := ih hrest
      rw [List.map_cons, List.map_cons, hcp, hcps]
      exact ⟨rfl, List.forall_mem_cons.2 ⟨hchar, hoffsets⟩⟩

/-! ### Result -/

/-- Three readings of a text as UTF-8, for a text that leaves room for four more bytes.  If it is
taken for well formed it is the encoding of some characters, and the loop over it reads exactly
those: every reading succeeds and takes as many bytes as the first byte tells.  In any text a
reading takes between one and four bytes, all of them in the text, and is what is read off the rest
of the text; so every loop ends, and counts the columns of the text between its ends. -/
theorem readings_agree {s : Bytes} (hlength : s.length < 2 ^ 32 - 4) :
    (Utf8.malformed? s = none →
      ∃ text : List Char, s = text.flatMap String.utf8EncodeChar ∧
        ∃ offsets, Walk s s.length.toUInt32 0 offsets ∧
          offsets.map (fun i => (Utf8.readAt s i).codePoint) = text.map Char.val ∧
          ∀ i ∈ offsets, ∃ b, s[i.toNat]? = some b ∧ (Utf8.readAt s i).succeeded = true ∧
            (Utf8.readAt s i).next.toNat = i.toNat + Utf8.sequenceLength b) ∧
      (∀ i : UInt32, i.toNat < s.length →
        i.toNat + 1 ≤ (Utf8.readAt s i).next.toNat ∧
          (Utf8.readAt s i).next.toNat ≤ i.toNat + 4 ∧
          (Utf8.readAt s i).next.toNat ≤ s.length) ∧
      (∀ (i : UInt32) (b : UInt8) (following : Bytes), s.drop i.toNat = b :: following →
        (Utf8.readAt s i).succeeded = (Utf8.decode? b following).isSome ∧
          (Utf8.readAt s i).codePoint = (Utf8.decode b following).1 ∧
          (Utf8.readAt s i).next.toNat = i.toNat + 1 + (Utf8.decode b following).2) ∧
      ∀ lo hi : UInt32, ∃ offsets, Walk s hi lo offsets ∧
        offsets.length ≤ s.length - lo.toNat ∧
        displayWidth (hi.toNat - lo.toNat) (s.drop lo.toNat) =
          (offsets.map fun i => codePointWidth (Utf8.readAt s i).codePoint).foldl (· + ·) 0 := by
  refine ⟨fun hwell => ?_, fun i hi => Utf8.readAt_advances hlength hi,
    fun i b following h => Utf8.readAt_eq hlength h, fun lo hi => ?_⟩
  · obtain ⟨text, htext⟩ := Utf8.isEncoding_iff.2 hwell
    obtain ⟨offsets, hwalk, -⟩ := exists_walk hlength s.length.toUInt32 0
    have hsize : s.length.toUInt32.toNat = s.length := by
      rw [Nat.toUInt32, UInt32.toNat_ofNat', Nat.mod_eq_of_lt (by omega)]
    exact ⟨text, htext, offsets, hwalk, hwalk.of_flatMap hlength hsize htext⟩
  · obtain ⟨offsets, hwalk, hcount⟩ := exists_walk hlength hi lo
    exact ⟨offsets, hwalk, hcount, by rw [displayWidth, hwalk.codePointWidths_eq hlength]⟩

/-- A letter and the euro sign: the sign is read from three bytes.  Without the last of them each of
the other two takes a column of its own. -/
theorem readings_agree_of_euro :
    (∃ text : List Char, [0x61, 0xE2, 0x82, 0xAC] = text.flatMap String.utf8EncodeChar ∧
      ∃ offsets, Walk [0x61, 0xE2, 0x82, 0xAC] 4 0 offsets ∧
        offsets.map (fun i => (Utf8.readAt [0x61, 0xE2, 0x82, 0xAC] i).codePoint) =
          text.map Char.val) ∧
      ∃ offsets, Walk [0x61, 0xE2, 0x82] 3 0 offsets ∧ offsets.length ≤ 3 ∧
        (offsets.map fun i => codePointWidth (Utf8.readAt [0x61, 0xE2, 0x82] i).codePoint).foldl
          (· + ·) 0 = 3 := by
  constructor
  · have hwell : Utf8.malformed? [0x61, 0xE2, 0x82, 0xAC] = none := by decide +kernel
    obtain ⟨text, htext, offsets, hwalk, hcps, -⟩ := (readings_agree (by decide)).1 hwell
    exact ⟨text, htext, offsets, hwalk, hcps⟩
  · obtain ⟨-, -, -, hwidth⟩ := @readings_agree [0x61, 0xE2, 0x82] (by decide)
    obtain ⟨offsets, hwalk, hcount, hcolumns⟩ := hwidth 0 3
    exact ⟨offsets, hwalk, hcount, by rw [← hcolumns]; decide +kernel⟩

end ZigGolf
