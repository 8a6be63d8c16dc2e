-- SUMMARY: The dump file of Opus packets: what the tool that decodes it finds in it, also when it is cut.
import Xiaozhi.App.System
import Xiaozhi.Audio.Capture
import Xiaozhi.Data.Records
import Xiaozhi.Threads.Alone

/-!
# The dump file

`app_write_opus_packet` writes the packets of an upload to a file, and
`tools/decode_opus_dump.c` reads them from it.
-/

namespace Xiaozhi

/-! ## The tool -/

namespace DecodeOpusDump

/-- The results of the library calls for one packet: the new storage that
    `realloc` adds, the result of `opus_decode`, and whether `fwrite` succeeds. -/
structure Outcome where
  grown : Option (Nat → UInt8)
  decodedSamples : Int
  written : Bool

/-- The buffer, with room for a packet. -/
def growPacket (outcome : Outcome) (packet : Bytes) (packetLen : Nat) : Option Bytes :=
  if packetLen > packet.length then
    outcome.grown.map fun fresh => packet ++ (List.range (packetLen - packet.length)).map fresh
  else
    some packet

/-- The read loop in `main`, on the rest of the file: the packets that come to
    `opus_decode`. Packets are counted by `i`. -/
def readLoop (outcome : Nat → Outcome) (i : Nat) (packet : Bytes) : Bytes → List Bytes
  | low :: high :: file =>
    let packetLen := (low.toUInt16 ||| (high.toUInt16 <<< 8)).toNat
    if packetLen = 0 then
      readLoop outcome i packet file
    else
      match growPacket (outcome i) packet packetLen with
      | none => []
      | some packet =>
        let payload := file.take packetLen
        if payload.length ≠ packetLen then
          []
        else
          let packet := payload ++ packet.drop packetLen
          packet.take packetLen ::
            if (outcome i).decodedSamples < 0 ∨ (outcome i).written then
              readLoop outcome (i + 1) packet (file.drop packetLen)
            else
              []
  | _ => []
termination_by file => file.length

/-- The tool gives up because memory or space for its output is missing. -/
def Outcome.GivesUp (outcome : Outcome) : Prop := outcome.grown = none ∨ outcome.written = false

section

variable {outcome : Nat → Outcome} {i : Nat} {packet file : Bytes} {low high : UInt8}

theorem growPacket_eq_none {outcome : Outcome} {packetLen : Nat}
    (h : growPacket outcome packet packetLen = none) : outcome.grown = none := by
  unfold growPacket at h
  split at h
  · exact Option.map_eq_none_iff.mp h
  · cases h

/-- One turn of the loop on a length that is not zero. -/
theorem readLoop_cons (hlen : Records.lengthOf low high ≠ 0) :
    (readLoop outcome i packet (low :: high :: file) = [] ∧
      (file.length < Records.lengthOf low high ∨ (outcome i).grown = none)) ∨
    (Records.lengthOf low high ≤ file.length ∧ ∃ packet',
      readLoop outcome i packet (low :: high :: file) = file.take (Records.lengthOf low high) ::
        if (outcome i).decodedSamples < 0 ∨ (outcome i).written then
          readLoop outcome (i + 1) packet' (file.drop (Records.lengthOf low high))
        else
          []) := by
  change (low.toUInt16 ||| (high.toUInt16 <<< 8)).toNat ≠ 0 at hlen
  unfold Records.lengthOf
  rw [readLoop]
  dsimp only
  rw [if_neg hlen]
  generalize (low.toUInt16 ||| (high.toUInt16 <<< 8)).toNat = packetLen
  cases hgrow : growPacket (outcome i) packet packetLen with
  | none => exact .inl ⟨rfl, .inr (growPacket_eq_none hgrow)⟩
  | some packet =>
    dsimp only
    by_cases hshort : file.length < packetLen
    · have hpayload : (file.take packetLen).length ≠ packetLen := by
        rw [List.length_take]
        omega
      exact .inl ⟨if_pos hpayload, .inl hshort⟩
    · have hpayload : (file.take packetLen).length = packetLen := by
        rw [List.length_take]
        omega
      refine .inr ⟨not_lt.mp hshort, file.take packetLen ++ packet.drop packetLen, ?_⟩
      rw [if_neg (not_not.mpr hpayload), List.take_append_of_le_length hpayload.ge,
        List.take_of_length_le hpayload.le]

theorem readLoop_zero (hlen : Records.lengthOf low high = 0) :
    readLoop outcome i packet (low :: high :: file) = readLoop outcome i packet file := by
  rw [readLoop]
  exact if_pos hlen

/-- The packets that the tool decodes are the first of the complete records,
    and all of them if it does not give up. -/
theorem readLoop_decode : readLoop outcome i packet file <+: Records.decode file ∧
    ((∀ i, ¬(outcome i).GivesUp) → readLoop outcome i packet file = Records.decode file) := by
  induction file using Records.decode.induct generalizing i packet with
  | case1 low high rest hlen ih =>
    rw [readLoop_zero hlen, Records.decode, if_pos hlen]
    exact ih
  | case2 low high rest hlen hshort =>
    rw [Records.decode, if_neg hlen, if_pos hshort]
    rcases readLoop_cons hlen with ⟨hnil, -⟩ | ⟨hle, -⟩
    · rw [hnil]
      exact ⟨List.nil_prefix, fun _ => rfl⟩
    · exact absurd hshort (not_lt.mpr hle)
  | case3 low high rest hlen hlong ih =>
    rw [Records.decode, if_neg hlen, if_neg hlong]
    rcases readLoop_cons hlen with ⟨hnil, hwhy⟩ | ⟨-, packet', hcons⟩
    · rw [hnil]
      refine ⟨List.nil_prefix, fun houtcome => ?_⟩
      exact absurd hwhy (not_or.mpr ⟨hlong, fun hgrown => houtcome i (.inl hgrown)⟩)
    · rw [hcons]
      refine ⟨List.prefix_cons_inj _ |>.mpr ?_, fun houtcome => ?_⟩
      · split
        · exact ih.1
        · exact List.nil_prefix
      · have hwritten : (outcome i).written = true :=
          Bool.eq_true_of_not_eq_false fun h => houtcome i (.inr h)
        rw [if_pos (.inr hwritten), ih.2 houtcome]
  | case4 file hfile =>
    have hnil : readLoop outcome i packet file = [] := by
      rw [readLoop]
      exact hfile
    rw [hnil, Records.decode]
    · exact ⟨List.nil_prefix, fun _ => rfl⟩
    · exact hfile

end

end DecodeOpusDump

/-! ## The file -/

/-- A packet that can be written: its length fits into two bytes. -/
theorem runs_writeOpusPacket {packet : Bytes} {w w' : World} :
    (appWriteOpusPacket packet).Runs (fun _ => True) w true w' ↔
      (packet ≠ [] ∧ packet.length < 65536) ∧ ∃ content, w.opusDumpFile = some content ∧
        w' = { w with opusDumpFile := some (content ++ Records.record packet) } := by
  rw [appWriteOpusPacket, Threads.Prog.runs_act]
  by_cases hpacket : packet = [] ∨ packet.length > 65535
  · have hnot : ¬(packet ≠ [] ∧ packet.length < 65536) := by
      rintro ⟨hne, hlen⟩
      exact hpacket.elim hne (by omega)
    refine iff_of_false ?_ fun h => hnot h.1
    rintro ⟨c, b, w₁, -, hwrite, hrun⟩
    obtain ⟨rfl, -⟩ := Threads.Prog.runs_ret.mp hrun
    rw [if_pos hpacket] at hwrite
    cases hwrite
  · have hlen : packet.length < 65536 := not_le.mp fun h => hpacket (.inr h)
    simp only [if_neg hpacket]
    constructor
    · rintro ⟨c, b, w₁, -, hwrite, hrun⟩
      obtain ⟨rfl, rfl⟩ := Threads.Prog.runs_ret.mp hrun
      refine ⟨⟨fun h => hpacket (.inl h), hlen⟩, ?_⟩
      split at hwrite
      · cases hwrite
      · next content n hopen =>
        obtain ⟨hall, rfl⟩ := Prod.mk.inj (Option.some.inj hwrite)
        refine ⟨content, hopen, ?_⟩
        rw [List.take_of_length_le (of_decide_eq_true hall)]
        rfl
      · cases hwrite
    · rintro ⟨-, content, hopen, rfl⟩
      refine ⟨.count (Records.record packet).length, true, _, trivial, ?_, .refl⟩
      rw [hopen]
      show some (decide ((Records.record packet).length ≤ (Records.record packet).length),
        { w with opusDumpFile := some (content ++
          (Records.record packet).take (Records.record packet).length) }) = _
      rw [List.take_length, decide_eq_true le_rfl]

/-- Packets written to the dump file with success, one call after the other.
    Between the calls the file is left alone. -/
inductive Written : World → List Bytes → World → Prop where
  | nil {w w' : World} : w'.opusDumpFile = w.opusDumpFile → Written w [] w'
  | cons {w w₁ w₂ w' : World} {packet : Bytes} {packets : List Bytes} :
      w₁.opusDumpFile = w.opusDumpFile →
      (appWriteOpusPacket packet).Runs (fun _ => True) w₁ true w₂ →
      Written w₂ packets w' → Written w (packet :: packets) w'

/-- The file consists of the records of the packets. -/
theorem Written.file_eq {w w' : World} {packets : List Bytes} (h : Written w packets w')
    {content : Bytes} (hopen : w.opusDumpFile = some content) :
    w'.opusDumpFile = some (content ++ Records.encode packets) ∧
      ∀ packet ∈ packets, packet ≠ [] ∧ packet.length < 65536 := by
  induction h generalizing content with
  | nil hsame =>
    rw [Records.encode_nil, List.append_nil]
    exact ⟨hsame.trans hopen, fun _ h => (List.not_mem_nil h).elim⟩
  | cons hsame hrun _ ih =>
    obtain ⟨hpacket, content', hcontent, rfl⟩ := runs_writeOpusPacket.mp hrun
    obtain rfl := Option.some.inj (hcontent.symm.trans (hsame.trans hopen))
    obtain ⟨hfile, hpackets⟩ := ih rfl
    rw [Records.encode_cons, ← List.append_assoc]
    exact ⟨hfile, List.forall_mem_cons.mpr ⟨hpacket, hpackets⟩⟩

/-- Packets of 1 to 65535 bytes are those that can be written. -/
theorem exists_written_iff {w : World} {packets : List Bytes} {content : Bytes}
    (hopen : w.opusDumpFile = some content) : (∃ w', Written w packets w') ↔
      ∀ packet ∈ packets, 1 ≤ packet.length ∧ packet.length ≤ 65535 := by
  constructor
  · rintro ⟨w', h⟩ packet hmem
    obtain ⟨hne, hlen⟩ := (h.file_eq hopen).2 packet hmem
    exact ⟨List.length_pos_iff.mpr hne, Nat.le_of_lt_succ hlen⟩
  · intro hpackets
    induction packets generalizing w content with
    | nil => exact ⟨w, .nil rfl⟩
    | cons packet packets ih =>
      obtain ⟨⟨hpos, hlen⟩, hrest⟩ := List.forall_mem_cons.mp hpackets
      obtain ⟨w', hwritten⟩ := ih (w := { w with
        opusDumpFile := some (content ++ Records.record packet) }) rfl hrest
      have hpacket : packet ≠ [] ∧ packet.length < 65536 :=
        ⟨List.length_pos_iff.mp hpos, Nat.lt_succ_of_le hlen⟩
      exact ⟨w', .cons rfl (runs_writeOpusPacket.mpr ⟨hpacket, content, hopen, rfl⟩) hwritten⟩

/-- The first `k` of some packets are those completely contained in the first
    `n` bytes of their file. -/
structure Contained (packets : List Bytes) (n k : Nat) : Prop where
  fits : (Records.encode (packets.take k)).length ≤ n
  next : k < packets.length → n < (Records.encode (packets.take (k + 1))).length

/-- Packets of 1 to 65535 bytes can be written, and no others. From their file, cut
    anywhere, the tool recovers exactly the packets that are completely contained
    in it, in order, and from the whole file it recovers all of them. If memory or
    space for its output is missing, it has recovered the first of them by then. -/
theorem packets_recovered {w : World} {packets : List Bytes} (hopen : w.opusDumpFile = some []) :
    ((∃ w', Written w packets w') ↔
      ∀ packet ∈ packets, 1 ≤ packet.length ∧ packet.length ≤ 65535) ∧
    ∀ w', Written w packets w' → ∃ file, w'.opusDumpFile = some file ∧
      ∀ outcome : Nat → DecodeOpusDump.Outcome,
        (∀ n, ∃ k, Contained packets n k ∧
          DecodeOpusDump.readLoop outcome 0 [] (file.take n) <+: packets.take k ∧
          ((∀ i, ¬(outcome i).GivesUp) →
            DecodeOpusDump.readLoop outcome 0 [] (file.take n) = packets.take k)) ∧
        ((∀ i, ¬(outcome i).GivesUp) → DecodeOpusDump.readLoop outcome 0 [] file = packets) := by
  refine ⟨exists_written_iff hopen, fun w' h => ?_⟩
  obtain ⟨hfile, hpackets⟩ := h.file_eq hopen
  refine ⟨Records.encode packets, hfile, fun outcome => ⟨fun n => ?_, fun houtcome => ?_⟩⟩
  · obtain ⟨k, hdecode, hfits, hnext⟩ := Records.decode_take_encode hpackets n
    refine ⟨k, ⟨hfits, hnext⟩, ?_⟩
    rw [← hdecode]
    exact DecodeOpusDump.readLoop_decode
  · rw [DecodeOpusDump.readLoop_decode.2 houtcome, Records.decode_encode hpackets]

/-- Two packets, in a file that ends within the second one. -/
theorem packets_recovered_cut : ∃ w' file, w'.opusDumpFile = some file ∧
    Written { World.init ⟨1, 16000, 1200, 500⟩ with opusDumpFile := some [] } [[7], [8, 9]] w' ∧
    ∃ k, Contained [[7], [8, 9]] 6 k ∧
      DecodeOpusDump.readLoop (fun _ => ⟨some fun _ => 0, 960, true⟩) 0 [] (file.take 6) =
        [[7], [8, 9]].take k := by
  let start : World := { World.init ⟨1, 16000, 1200, 500⟩ with opusDumpFile := some [] }
  have hopen : start.opusDumpFile = some [] := rfl
  obtain ⟨w', hwritten⟩ : ∃ w', Written start [[7], [8, 9]] w' :=
    (packets_recovered hopen).1.mpr (by decide)
  obtain ⟨file, hfile, hall⟩ := (packets_recovered hopen).2 w' hwritten
  obtain ⟨k, hk, -, heq⟩ := (hall fun _ => ⟨some fun _ => 0, 960, true⟩).1 6
  refine ⟨_, file, hfile, hwritten, k, hk, heq fun i hgives => ?_⟩
  rcases hgives with hgrown | hwritten
  · cases hgrown
  · cases hwritten

end Xiaozhi
