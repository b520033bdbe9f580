import ZigGolf.Storage.Reading
import ZigGolf.Proofs.Storage.LineEnd
import Mathlib.Data.List.Basic

/-!
# Reading streams

A stream that comes to its end is read as a file of the same content is (`readStream_eq`): the
blocks make up the content, and the limit is passed at some block if and only if the content passes
it.  What comes of the content is said byte by byte in `readStream_eq_readSource`.
-/

namespace ZigGolf

/-- The blocks of a stream make up what it holds, if that is within the limit. -/
lemma map_flatten_readBlocks (limit : UInt64) (size : Nat) (blocks : List Bytes) (data : Bytes) :
    (readBlocks limit false size blocks data).map List.flatten =
      if limit.toNat < size + data.length then .error (.tooLarge limit)
      else .ok (blocks.reverse.flatten ++ data) := by
  induction hn : data.length using Nat.strongRecOn generalizing size blocks data with
  | _ n ih =>
    rw [readBlocks]
    by_cases hlast : (data.take blockSize).length < blockSize
    · have hle : data.length ≤ blockSize := by
        rw [List.length_take] at hlast
        omega
      rw [dif_pos hlast, List.take_of_length_le hle, hn]
      by_cases hlimit : limit.toNat < size + n
      · simp [hlimit, Except.map]
      · simp [hlimit, Except.map]
    · have hge : blockSize ≤ data.length := by
        rw [List.length_take] at hlast
        omega
      have hdrop : (data.drop blockSize).length = n - blockSize := by rw [List.length_drop, hn]
      have hsize : size + blockSize + (n - blockSize) = size + n := by omega
      rw [dif_neg hlast]
      by_cases hblock : limit.toNat < size + blockSize
      · have hlimit : limit.toNat < size + n := by omega
        rw [if_pos hblock, if_pos hlimit]
        rfl
      · have hpos : 0 < blockSize := by decide
        rw [if_neg hblock, ih (n - blockSize) (by omega) _ _ _ hdrop, hsize]
        simp

/-- A stream that comes to its end is read as a file is. -/
lemma readStream_eq (limit : UInt64) {stream : InputStream} (h : stream.broken = false) :
    readStream limit stream = readContent limit stream.data := by
  have hblocks := map_flatten_readBlocks limit 0 [] stream.data
  unfold readStream readContent
  rw [h]
  cases hread : readBlocks limit false 0 [] stream.data with
  | error e =>
    rw [hread] at hblocks
    by_cases hlimit : limit.toNat < stream.data.length
    · simpa [hlimit, Except.map] using hblocks
    · simp [hlimit, Except.map] at hblocks
  | ok blocks =>
    rw [hread] at hblocks
    by_cases hlimit : limit.toNat < stream.data.length
    · simp [hlimit, Except.map] at hblocks
    · simp only [Except.map, Nat.zero_add, hlimit, ↓reduceIte, Except.ok.injEq] at hblocks ⊢
      rw [hblocks]
      rfl

/-! ### Streams and files -/

/-- A content within the limit is read without its carriage returns directly before a line feed. -/
lemma readContent_of_le {limit : UInt64} {content : Bytes} (h : content.length ≤ limit.toNat) :
    readContent limit content = .ok (withoutReturns content) := by
  rw [readContent, if_neg (Nat.not_lt.2 h), normalizeLineEnds_eq_withoutReturns]

/-- A stream that holds what a file holds and comes to its end is read as the file is, at any limit.
Within the limit, which counts the bytes as they are stored, exactly the carriage returns directly
before a line feed are dropped; beyond it there is no text, but an error that mentions the limit. -/
theorem readStream_eq_readSource (limit : UInt64) {folder : Folder} {path data : Bytes}
    (h : folder.read path = .ok data) :
    readStream limit ⟨data, false⟩ = folder.readSource limit path ∧
      (data.length ≤ limit.toNat →
        folder.readSource limit path = .ok (withoutReturns data)) ∧
      (limit.toNat < data.length →
        ∃ e, folder.readSource limit path = .error e ∧ e.code = .sourceTooLarge ∧
          e.text = decimal limit.toNat) := by
  have hfile : folder.readSource limit path = readContent limit data := by
    rw [Folder.readSource, h]
  rw [hfile]
  refine ⟨readStream_eq limit rfl, ?_, ?_⟩
  · intro hle
    exact readContent_of_le hle
  · intro hlt
    exact ⟨.tooLarge limit, if_pos hlt, rfl, rfl⟩

/-- Five bytes are within a limit of five, though only four of them are kept. -/
theorem readStream_eq_readSource_of_line_end :
    let data := ascii "a\r\n\rb"
    let folder : Folder := { files := [(⟨.above 0, [ascii "x"]⟩, data)] }
    readStream 5 ⟨data, false⟩ = .ok (ascii "a\n\rb") ∧
      readStream 4 ⟨data, false⟩ = folder.readSource 4 (ascii "x") ∧
      ∃ e, folder.readSource 4 (ascii "x") = .error e ∧ e.code = .sourceTooLarge ∧
        e.text = ascii "4" := by
  intro data folder
  have hread : folder.read (ascii "x") = .ok data := by decide +kernel
  obtain ⟨hfive, hkept, -⟩ := readStream_eq_readSource 5 hread
  obtain ⟨hfour, -, hlimit⟩ := readStream_eq_readSource 4 hread
  refine ⟨?_, hfour, hlimit (by decide +kernel)⟩
  have htext : withoutReturns data = ascii "a\n\rb" := by decide +kernel
  rw [hfive, hkept (by decide +kernel), htext]

end ZigGolf
