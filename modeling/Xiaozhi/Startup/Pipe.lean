-- SUMMARY: What `ota_append_pipe_output` leaves in memory, however the stream is split.
import Xiaozhi.Data.Lists
import Xiaozhi.Data.Memory
import Xiaozhi.Startup.Ota

/-!
# The output of the child process

`ota_append_pipe_output` on the memory: it collects what `read` returns in a
buffer with a NUL behind it, and reads on when the buffer is full.
-/

namespace Xiaozhi

namespace Ota

/-- What one `read` into the local buffer of 256 bytes returns. -/
def Chunk : Type := { bytes : Bytes // 0 < bytes.length ∧ bytes.length ≤ 256 }

/-- How the reads end. When one fails, the pipe may still hold bytes. -/
inductive PipeEnd where
  | eof
  | fails (unread : Bytes)

/-- The results of `read` that are still to come, call after call. -/
structure PipeReads where
  chunks : List Chunk
  ending : PipeEnd

/-- What the child process writes and the pipe still gives. -/
def PipeReads.stream (reads : PipeReads) : Bytes :=
  (reads.chunks.map (·.val)).flatten ++
    match reads.ending with
    | .eof => []
    | .fails unread => unread

/-- The value that the loop ends with: `nread < 0 ? -1 : 0`. -/
def PipeEnd.result : PipeEnd → Int
  | .eof => 0
  | .fails _ => -1

/-- The loop, with the buffer at the address `dst`: the result, what it has left
    unread, and the memory. -/
def collect (dst size : Nat) (ending : PipeEnd) :
    List Chunk → Nat → Memory → Int × PipeReads × Memory
  | [], _, m => (ending.result, ⟨[], ending⟩, m)
  | buffer :: chunks, used, m =>
    if used ≥ size - 1 then
      collect dst size ending chunks used m
    else
      let toCopy := if buffer.val.length > size - 1 - used then size - 1 - used else buffer.val.length
      let m := m.write (dst + used) (buffer.val.take toCopy)
      let used := used + toCopy
      collect dst size ending chunks used (m.write (dst + used) [0])

/-- `ota_append_pipe_output`: its result, what it leaves unread, and the memory. -/
def otaAppendPipeOutput (reads : PipeReads) (dst : Option Nat) (size : Nat) (m : Memory) :
    Int × PipeReads × Memory :=
  match dst with
  | none => (-1, reads, m)
  | some dst =>
    if size = 0 then
      (-1, reads, m)
    else
      collect dst size reads.ending reads.chunks 0 (m.write dst [0])

section

variable {dst size : Nat} {chunks : List Chunk} {ending : PipeEnd} {m : Memory}

/-- The buffer holds a text and a NUL, before each `read`; the loop reads to the end. -/
theorem collect_eq (text : Bytes) (hlen : text.length ≤ size - 1) :
    collect dst size ending chunks text.length (m.write dst (text ++ [0])) =
      (ending.result, ⟨[], ending⟩,
        m.write dst (appendPipeOutput size (chunks.map (·.val)) text ++ [0])) := by
  induction chunks generalizing text with
  | nil => rfl
  | cons buffer chunks ih =>
    rw [collect, List.map_cons, appendPipeOutput]
    by_cases hfull : text.length ≥ size - 1
    · rw [if_pos hfull, if_pos hfull, ih _ hlen]
    · rw [if_neg hfull, if_neg hfull]
      -- the NUL is overwritten by what is copied, and written again behind it
      let toCopy := if buffer.val.length > size - 1 - text.length then size - 1 - text.length
        else buffer.val.length
      let piece := buffer.val.take toCopy
      have hcopy : toCopy = min (size - 1 - text.length) buffer.val.length := by
        by_cases hlarge : buffer.val.length > size - 1 - text.length
        · exact (if_pos hlarge).trans (Nat.min_eq_left hlarge.le).symm
        · exact (if_neg hlarge).trans (Nat.min_eq_right (not_lt.mp hlarge)).symm
      have hpiece : piece = buffer.val.take (size - 1 - text.length) := by
        rw [show piece = buffer.val.take toCopy from rfl, hcopy, ← List.take_take, List.take_length]
      have hlength : piece.length = toCopy := by
        rw [hpiece, hcopy, List.length_take]
      have hpos : [(0 : UInt8)].length ≤ piece.length := by
        have := buffer.property.1
        rw [hlength, hcopy, List.length_singleton]
        omega
      have hfirst : (m.write dst (text ++ [0])).write (dst + text.length) piece =
          m.write dst ((text ++ piece) ++ []) := by
        rw [Memory.write_write_tail hpos, List.append_nil]
      have hused : text.length + toCopy = (text ++ piece).length := by
        rw [List.length_append, hlength]
      show collect dst size ending chunks (text.length + toCopy)
        (((m.write dst (text ++ [0])).write (dst + text.length) piece).write
          (dst + (text.length + toCopy)) [0]) = _
      rw [hfirst, hused, Memory.write_write_tail (Nat.zero_le _), ih _ (by omega), hpiece]

/-- The whole stream is read, and as much as fits is kept. -/
theorem appendPipeOutput_eq (text : Bytes) {chunks : List Bytes} (hlen : text.length ≤ size - 1) :
    appendPipeOutput size chunks text = (text ++ chunks.flatten).take (size - 1) := by
  induction chunks generalizing text with
  | nil => rw [appendPipeOutput, List.flatten_nil, List.append_nil, List.take_of_length_le hlen]
  | cons chunk chunks ih =>
    rw [appendPipeOutput, List.flatten_cons]
    split
    · next hfull =>
      rw [ih _ hlen, List.take_append_of_le_length (by omega), List.take_append_of_le_length (by omega)]
    · next hroom =>
      have hkept : (text ++ chunk.take (size - 1 - text.length)) =
          (text ++ chunk).take (size - 1) := by
        rw [List.take_append, List.take_of_length_le hlen]
      rw [hkept, ih _ (List.length_take_le _ _), ← List.append_assoc, Lists.take_take_append]

end

/-! ## The result -/

variable {reads : PipeReads} {dst size : Nat} {m : Memory}

/-- However the stream is split, it is read to its end, and copied as far as it fits. -/
theorem otaAppendPipeOutput_eq (hsize : 0 < size) : otaAppendPipeOutput reads (some dst) size m =
    (reads.ending.result, ⟨[], reads.ending⟩,
      m.write dst ((reads.chunks.map (·.val)).flatten.take (size - 1) ++ [0])) := by
  have hloop : collect dst size reads.ending reads.chunks 0 (m.write dst [0]) =
      (reads.ending.result, ⟨[], reads.ending⟩,
        m.write dst (appendPipeOutput size (reads.chunks.map (·.val)) [] ++ [0])) :=
    collect_eq [] (Nat.zero_le _)
  have hkept : appendPipeOutput size (reads.chunks.map (·.val)) [] =
      (reads.chunks.map (·.val)).flatten.take (size - 1) := appendPipeOutput_eq [] (Nat.zero_le _)
  rw [hkept] at hloop
  exact (if_neg hsize.ne').trans hloop

/-- Success means the end of the stream. -/
theorem ending_eq_eof (hsize : 0 < size) (h : (otaAppendPipeOutput reads (some dst) size m).1 = 0) :
    reads.ending = .eof := by
  rw [otaAppendPipeOutput_eq hsize] at h
  cases hend : reads.ending with
  | eof => rfl
  | fails unread =>
    rw [hend] at h
    cases h

theorem stream_of_eof (h : reads.ending = .eof) :
    reads.stream = (reads.chunks.map (·.val)).flatten := by
  rw [PipeReads.stream, h, List.append_nil]

/-- What the caller finds after a success: nothing of the stream is left unread,
    and the buffer holds as much of it as fits, with a NUL behind it. -/
structure Collected (reads left : PipeReads) (dst size : Nat) (m : Memory) : Prop where
  consumed : left.stream = []
  text : m.read dst (min reads.stream.length (size - 1)) = reads.stream.take (size - 1)
  terminator : m (dst + min reads.stream.length (size - 1)) = 0

theorem collected (hsize : 0 < size) (h : (otaAppendPipeOutput reads (some dst) size m).1 = 0) :
    Collected reads (otaAppendPipeOutput reads (some dst) size m).2.1 dst size
      (otaAppendPipeOutput reads (some dst) size m).2.2 := by
  have heof := ending_eq_eof hsize h
  have hstream := stream_of_eof heof
  rw [otaAppendPipeOutput_eq hsize, heof, ← hstream]
  let text := reads.stream.take (size - 1)
  have hlen : (text ++ [0]).length = min reads.stream.length (size - 1) + 1 := by
    rw [List.length_append, List.length_take, min_comm]
    rfl
  have hread : (m.write dst (text ++ [0])).read dst (min reads.stream.length (size - 1) + 1) =
      text ++ [0] := by
    rw [← hlen]
    exact Memory.read_write
  rw [Memory.read_add] at hread
  obtain ⟨htext, hnul⟩ := List.append_inj' hread rfl
  exact ⟨rfl, htext, (List.cons.inj hnul).1⟩

end Ota

end Xiaozhi
