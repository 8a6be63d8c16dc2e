-- SUMMARY: The builders of all messages into a buffer, and when their results can be trusted.
import Xiaozhi.Protocol.Messages
import Xiaozhi.Startup.Ota

/-!
# Builders

The builders of `xiaozhi_protocol.c` and `ota_client.c` with their results and
the bytes that they leave in the buffer. All write with `snprintf`, which returns
the length of the whole text, or `-1` if that is no `int`.
-/

namespace Xiaozhi

open CString

/-- `INT_MAX`. -/
def intMax : Nat := 2 ^ 31 - 1

/-- A buffer whose size is at least 1 and an `int`. -/
abbrev OutputBuffer : Type := { bytes : Bytes // 1 ≤ bytes.length ∧ bytes.length ≤ intMax }

/-- `snprintf`: its result, and what is in the buffer. -/
def snprintf (buf text : Bytes) : Int × Bytes :=
  (if text.length > intMax then -1 else text.length,
    text.take (buf.length - 1) ++ [0] ++ buf.drop ((text.take (buf.length - 1)).length + 1))

/-- `snprintf(buf, buf_size, …) >= (int)buf_size ? -1 : 0`. -/
def printChecked (buf text : Bytes) : Int × Bytes :=
  let (rc, buf') := snprintf buf text
  (if rc ≥ buf.length then -1 else 0, buf')

/-- `print_json`: the result of `snprintf` is not looked at. -/
def printJson (buf text : Bytes) : Int × Bytes := (0, (snprintf buf text).2)

/-- A call of a builder, with its arguments but for the buffer. -/
inductive BuilderCall where
  | hello (cfg : Option XiaozhiHelloConfig)
  | listenDetect
  | listenStart
  | listenStop
  | listenStartManual (sessionId : Option Bytes)
  | listenStopManual (sessionId : Option Bytes)
  | abort (reason : Option Bytes)
  | otaRequest (cfg : Option Configuration)

namespace BuilderCall

/-- The text of a manual listen message. -/
def manualText (state : String) (sessionId : Bytes) : Bytes :=
  ofString "\x7b\"session_id\":\"" ++ sessionId ++
    ofString "\",\"type\":\"listen\",\"state\":\"" ++ ofString state ++
    ofString "\",\"mode\":\"manual\"\x7d"

/-- The message that is to be built; none if the arguments are refused. -/
def message : BuilderCall → Option Bytes
  | hello cfg => cfg.map XiaozhiProtocol.helloText
  | listenDetect => some (ofString "\x7b\"type\":\"listen\",\"state\":\"detect\"\x7d")
  | listenStart => some (ofString "\x7b\"type\":\"listen\",\"state\":\"start\",\"mode\":\"auto\"\x7d")
  | listenStop => some (ofString "\x7b\"type\":\"listen\",\"state\":\"stop\"\x7d")
  | listenStartManual sessionId => (sessionId.filter (· ≠ [])).map (manualText "start")
  | listenStopManual sessionId => (sessionId.filter (· ≠ [])).map (manualText "stop")
  | abort reason => some (ofString "\x7b\"type\":\"abort\",\"reason\":\"" ++
      reason.getD (ofString "unknown") ++ ofString "\"\x7d")
  | otaRequest cfg => cfg.map fun cfg => (Ota.requestObject cfg).printUnformatted

/-- The function that writes the message. -/
def print : BuilderCall → Bytes → Bytes → Int × Bytes
  | hello _ => printJson
  | _ => printChecked

/-- The builder, with the allocations of cJSON succeeding. -/
def run (call : BuilderCall) (buf : OutputBuffer) : Int × Bytes :=
  match call.message with
  | none => (-1, buf.val)
  | some text => call.print buf.val text

/-- A success means that the buffer holds the complete message with its NUL, and
    a message that does not fit is refused. -/
structure Honest (call : BuilderCall) (buf : OutputBuffer) : Prop where
  complete : (call.run buf).1 = 0 →
    ∃ text, call.message = some text ∧ text ++ [0] <+: (call.run buf).2
  refused : ∀ text, call.message = some text → buf.val.length ≤ text.length →
    (call.run buf).1 = -1

/-- The hello message fits, and the length of any other message is an `int`. -/
def Trustworthy (call : BuilderCall) (buf : OutputBuffer) : Prop :=
  match call with
  | hello cfg => ∀ cfg', cfg = some cfg' → (XiaozhiProtocol.helloText cfg').length < buf.val.length
  | call => ∀ text, call.message = some text → text.length ≤ intMax

end BuilderCall

/-! ## The two ways to print -/

/-- `BuilderCall.Honest` for the printing of a text. -/
structure HonestPrint (buf text : Bytes) (result : Int × Bytes) : Prop where
  complete : result.1 = 0 → text ++ [0] <+: result.2
  refused : buf.length ≤ text.length → result.1 = -1

section

variable {buf text : Bytes}

/-- A text that fits is written completely. -/
theorem snprintf_complete (h : text.length < buf.length) : text ++ [0] <+: (snprintf buf text).2 := by
  rw [snprintf, List.take_of_length_le (Nat.le_sub_one_of_lt h)]
  exact List.prefix_append _ _

theorem snprintf_length (h : text.length ≤ intMax) : (snprintf buf text).1 = text.length :=
  if_neg (not_lt.mpr h)

/-- Beyond `INT_MAX` a message that does not fit is reported as written. -/
theorem printChecked_overflow (h : intMax < text.length) : (printChecked buf text).1 = 0 := by
  have hrc : (snprintf buf text).1 = -1 := if_pos h
  show (if (snprintf buf text).1 ≥ buf.length then -1 else 0) = 0
  rw [hrc, if_neg (by omega)]

theorem printChecked_result (h : text.length ≤ intMax) :
    (printChecked buf text).1 = if buf.length ≤ text.length then -1 else 0 := by
  show (if (snprintf buf text).1 ≥ buf.length then -1 else 0) = _
  rw [snprintf_length h]
  exact if_congr Int.ofNat_le rfl rfl

theorem printChecked_honest_iff (hbuf : buf.length ≤ intMax) :
    HonestPrint buf text (printChecked buf text) ↔ text.length ≤ intMax := by
  constructor
  · intro h
    by_contra hlong
    have hrefused := h.refused (hbuf.trans (not_le.mp hlong).le)
    rw [printChecked_overflow (not_le.mp hlong)] at hrefused
    cases hrefused
  · intro hlen
    have hresult : (printChecked buf text).1 = if buf.length ≤ text.length then -1 else 0 :=
      printChecked_result hlen
    refine ⟨fun hzero => snprintf_complete ?_, fun hle => hresult.trans (if_pos hle)⟩
    by_contra hle
    rw [hzero, if_pos (not_lt.mp hle)] at hresult
    cases hresult

theorem printJson_honest_iff : HonestPrint buf text (printJson buf text) ↔ text.length < buf.length := by
  constructor
  · intro h
    by_contra hle
    cases h.refused (not_lt.mp hle)
  · exact fun h => ⟨fun _ => snprintf_complete h, fun hle => absurd h (not_lt.mpr hle)⟩

end

namespace BuilderCall

variable {call : BuilderCall} {buf : OutputBuffer} {text : Bytes}

theorem honest_of_refused (h : call.message = none) : call.Honest buf := by
  have hrun : call.run buf = (-1, buf.val) := by rw [run, h]
  refine ⟨fun hzero => ?_, fun text htext => ?_⟩
  · rw [hrun] at hzero
    cases hzero
  · rw [h] at htext
    cases htext

theorem honest_iff_print (h : call.message = some text) :
    call.Honest buf ↔ HonestPrint buf.val text (call.print buf.val text) := by
  have hrun : call.run buf = call.print buf.val text := by rw [run, h]
  constructor
  · rintro ⟨hcomplete, hrefused⟩
    rw [hrun] at hcomplete hrefused
    refine ⟨fun hzero => ?_, hrefused text h⟩
    obtain ⟨text', htext', hpre⟩ := hcomplete hzero
    obtain rfl := Option.some.inj (h.symm.trans htext')
    exact hpre
  · rintro ⟨hcomplete, hrefused⟩
    rw [← hrun] at hcomplete hrefused
    refine ⟨fun hzero => ⟨text, h, hcomplete hzero⟩, fun text' htext' hle => ?_⟩
    obtain rfl := Option.some.inj (h.symm.trans htext')
    exact hrefused hle

/-- A builder other than that of the hello message. -/
theorem honest_iff_checked (hprint : call.print = printChecked) :
    call.Honest buf ↔ ∀ text, call.message = some text → text.length ≤ intMax := by
  cases hmessage : call.message with
  | none => exact iff_of_true (honest_of_refused hmessage) nofun
  | some text =>
    rw [honest_iff_print hmessage, hprint, printChecked_honest_iff buf.property.2]
    constructor
    · intro hlen text' htext'
      obtain rfl := Option.some.inj htext'
      exact hlen
    · exact fun h => h text rfl

/-- For every input and every buffer, a builder can be trusted exactly if the
    hello message fits, and if the length of any other message is an `int`. -/
theorem honest_iff (call : BuilderCall) (buf : OutputBuffer) :
    call.Honest buf ↔ call.Trustworthy buf := by
  cases call with
  | hello cfg =>
    cases cfg with
    | none => exact iff_of_true (honest_of_refused rfl) nofun
    | some cfg =>
      refine (honest_iff_print rfl).trans (printJson_honest_iff.trans ?_)
      constructor
      · intro hlen cfg' hcfg
        obtain rfl := Option.some.inj hcfg
        exact hlen
      · exact fun h => h cfg rfl
  | listenDetect => exact honest_iff_checked rfl
  | listenStart => exact honest_iff_checked rfl
  | listenStop => exact honest_iff_checked rfl
  | listenStartManual sessionId => exact honest_iff_checked rfl
  | listenStopManual sessionId => exact honest_iff_checked rfl
  | abort reason => exact honest_iff_checked rfl
  | otaRequest cfg => exact honest_iff_checked rfl

/-- A hello message in a buffer of one byte is reported as built. -/
theorem hello_truncated : ¬(hello (some ⟨1, 16000, 1, 60⟩)).Honest ⟨[1], by decide, by decide⟩ := by
  intro h
  have hrefused := h.refused (XiaozhiProtocol.helloText ⟨1, 16000, 1, 60⟩) rfl (by decide +kernel)
  cases hrefused

end BuilderCall

end Xiaozhi
