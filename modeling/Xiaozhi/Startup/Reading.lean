-- SUMMARY: What a configuration text assigns, read without regard to order, and that the loop stores it.
import Xiaozhi.Data.Lists
import Xiaozhi.Startup.Config

/-!
# Reading the configuration

The meaning of a configuration text, stated without the loop of `config.c`: a
line is a header or an assignment, an assignment belongs to the last header
above it, and a setting has the value of the last assignment to it.
-/

namespace Xiaozhi

namespace Configuration

open CString

/-! ## Settings -/

/-- The keys that `config_assign_value` knows, each in its section. -/
inductive Setting where
  | otaUrl | acceptLanguage | appVersion | elfSha256
  | serverUrl | token | protocolVersion
  | deviceId | clientId
  | boardType | boardName | ssid | rssi
  | captureDevice | playbackDevice | inputSampleRate
  | silenceTimeoutMs | silenceThreshold | maxUtteranceMs
  | logLevel | reconnectBackoffMs
  deriving DecidableEq

/-- The contents of a field of `app_config_t`. -/
inductive Value where
  | text (s : Bytes)
  | number (n : Int)
  deriving DecidableEq

namespace Setting

def sect : Setting → String
  | otaUrl | acceptLanguage | appVersion | elfSha256 => "ota"
  | serverUrl | token | protocolVersion => "server"
  | deviceId | clientId => "device"
  | boardType | boardName | ssid | rssi => "board"
  | captureDevice | playbackDevice | inputSampleRate => "audio"
  | silenceTimeoutMs | silenceThreshold | maxUtteranceMs => "audio"
  | logLevel | reconnectBackoffMs => "runtime"

def key : Setting → String
  | otaUrl | serverUrl => "url"
  | acceptLanguage => "accept_language"
  | appVersion => "app_version"
  | elfSha256 => "elf_sha256"
  | token => "token"
  | protocolVersion => "protocol_version"
  | deviceId => "device_id"
  | clientId => "client_id"
  | boardType => "type"
  | boardName => "name"
  | ssid => "ssid"
  | rssi => "rssi"
  | captureDevice => "capture_device"
  | playbackDevice => "playback_device"
  | inputSampleRate => "input_sample_rate"
  | silenceTimeoutMs => "silence_timeout_ms"
  | silenceThreshold => "silence_threshold"
  | maxUtteranceMs => "max_utterance_ms"
  | logLevel => "log_level"
  | reconnectBackoffMs => "reconnect_backoff_ms"

/-- The size of a string field in `config.h`; an `int` has none. -/
def capacity : Setting → Option Nat
  | otaUrl | serverUrl | token => some 256
  | elfSha256 => some 96
  | appVersion | deviceId | clientId | boardType | boardName | ssid => some 64
  | captureDevice | playbackDevice => some 64
  | acceptLanguage => some 32
  | logLevel => some 16
  | protocolVersion | rssi | inputSampleRate => none
  | silenceTimeoutMs | silenceThreshold | maxUtteranceMs | reconnectBackoffMs => none

/-- A string is cut to the capacity minus one, an integer is read by `atoi`. -/
def convert (s : Setting) (value : Bytes) : Value :=
  match s.capacity with
  | some size => .text (value.take (size - 1))
  | none => .number (atoi value)

end Setting

/-- The field that a setting is stored in. -/
def read (cfg : Configuration) : Setting → Value
  | .otaUrl => .text cfg.ota.url
  | .acceptLanguage => .text cfg.ota.acceptLanguage
  | .appVersion => .text cfg.ota.appVersion
  | .elfSha256 => .text cfg.ota.elfSha256
  | .serverUrl => .text cfg.server.url
  | .token => .text cfg.server.token
  | .protocolVersion => .number cfg.server.protocolVersion
  | .deviceId => .text cfg.device.deviceId
  | .clientId => .text cfg.device.clientId
  | .boardType => .text cfg.board.type
  | .boardName => .text cfg.board.name
  | .ssid => .text cfg.board.ssid
  | .rssi => .number cfg.board.rssi
  | .captureDevice => .text cfg.audio.captureDevice
  | .playbackDevice => .text cfg.audio.playbackDevice
  | .inputSampleRate => .number cfg.audio.inputSampleRate
  | .silenceTimeoutMs => .number cfg.audio.silenceTimeoutMs
  | .silenceThreshold => .number cfg.audio.silenceThreshold
  | .maxUtteranceMs => .number cfg.audio.maxUtteranceMs
  | .logLevel => .text cfg.runtime.logLevel
  | .reconnectBackoffMs => .number cfg.runtime.reconnectBackoffMs

/-- The settings are all there is in a configuration. -/
theorem ext_of_read {cfg cfg' : Configuration} (h : ∀ s, cfg.read s = cfg'.read s) : cfg = cfg' := by
  obtain ⟨⟨_, _, _, _⟩, ⟨_, _, _⟩, ⟨_, _⟩, ⟨_, _, _, _⟩, ⟨_, _, _, _, _, _⟩, ⟨_, _⟩⟩ := cfg
  obtain ⟨⟨_, _, _, _⟩, ⟨_, _, _⟩, ⟨_, _⟩, ⟨_, _, _, _⟩, ⟨_, _, _, _, _, _⟩, ⟨_, _⟩⟩ := cfg'
  have htext : ∀ {a b}, Value.text a = .text b → a = b := fun hab => Value.text.inj hab
  have hnumber : ∀ {a b}, Value.number a = .number b → a = b := fun hab => Value.number.inj hab
  simp only [Configuration.mk.injEq, OtaConfig.mk.injEq, ServerConfig.mk.injEq,
    DeviceConfig.mk.injEq, BoardConfig.mk.injEq, AudioConfig.mk.injEq, RuntimeConfig.mk.injEq]
  exact ⟨⟨htext (h .otaUrl), htext (h .acceptLanguage), htext (h .appVersion),
      htext (h .elfSha256)⟩,
    ⟨htext (h .serverUrl), htext (h .token), hnumber (h .protocolVersion)⟩,
    ⟨htext (h .deviceId), htext (h .clientId)⟩,
    ⟨htext (h .boardType), htext (h .boardName), htext (h .ssid), hnumber (h .rssi)⟩,
    ⟨htext (h .captureDevice), htext (h .playbackDevice), hnumber (h .inputSampleRate),
      hnumber (h .silenceTimeoutMs), hnumber (h .silenceThreshold), hnumber (h .maxUtteranceMs)⟩,
    ⟨htext (h .logLevel), hnumber (h .reconnectBackoffMs)⟩⟩

/-- The conversion of `config_assign_value`, before it is compared with the cut. -/
def Setting.store (s : Setting) (value : Bytes) : Value :=
  match s.capacity with
  | some size => .text (copy size value)
  | none => .number (atoi value)

theorem Setting.store_eq_convert {s : Setting} {value : Bytes} (h : ∀ b ∈ value, b ≠ 0) :
    s.store value = s.convert value := by
  unfold store convert
  cases s.capacity with
  | none => rfl
  | some size => simp only [copy, ofBytes_eq_self h]

/-! ## One assignment -/

/-- Its own key stores a setting. -/
theorem read_assignValue_self {cfg : Configuration} {s : Setting} {v : Bytes} :
    (cfg.assignValue (ofString s.sect) (ofString s.key) v).read s = s.store v := by
  cases s <;> rfl

/-- The other keys of its section leave a setting alone. -/
theorem read_assignValue_of_key_ne {cfg : Configuration} {s : Setting} {k v : Bytes}
    (hne : k ≠ ofString s.key) : (cfg.assignValue (ofString s.sect) k v).read s = cfg.read s := by
  cases s
  case otaUrl | acceptLanguage | appVersion | elfSha256 =>
    change Configuration.read { cfg with ota := cfg.ota.assign k v } _ = _
    simp only [read, OtaConfig.assign]
    split_ifs <;> first | rfl | contradiction
  case serverUrl | token | protocolVersion =>
    change Configuration.read { cfg with server := cfg.server.assign k v } _ = _
    simp only [read, ServerConfig.assign]
    split_ifs <;> first | rfl | contradiction
  case deviceId | clientId =>
    change Configuration.read { cfg with device := cfg.device.assign k v } _ = _
    simp only [read, DeviceConfig.assign]
    split_ifs <;> first | rfl | contradiction
  case boardType | boardName | ssid | rssi =>
    change Configuration.read { cfg with board := cfg.board.assign k v } _ = _
    simp only [read, BoardConfig.assign]
    split_ifs <;> first | rfl | contradiction
  case captureDevice | playbackDevice | inputSampleRate | silenceTimeoutMs | silenceThreshold
      | maxUtteranceMs =>
    change Configuration.read { cfg with audio := cfg.audio.assign k v } _ = _
    simp only [read, AudioConfig.assign]
    split_ifs <;> first | rfl | contradiction
  case logLevel | reconnectBackoffMs =>
    change Configuration.read { cfg with runtime := cfg.runtime.assign k v } _ = _
    simp only [read, RuntimeConfig.assign]
    split_ifs <;> first | rfl | contradiction

/-- Another section's assignments leave a setting alone. -/
theorem read_assignValue_of_ne {cfg : Configuration} {s : Setting} {sect k v : Bytes}
    (hne : sect ≠ ofString s.sect) : (cfg.assignValue sect k v).read s = cfg.read s := by
  unfold assignValue
  split_ifs with hota hserver hdevice hboard haudio hruntime
  case pos => cases s <;> first | rfl | exact absurd hota hne
  case pos => cases s <;> first | rfl | exact absurd hserver hne
  case pos => cases s <;> first | rfl | exact absurd hdevice hne
  case pos => cases s <;> first | rfl | exact absurd hboard hne
  case pos => cases s <;> first | rfl | exact absurd haudio hne
  case pos => cases s <;> first | rfl | exact absurd hruntime hne
  case neg => rfl

theorem stores_setting (s : Setting) : Stores (·.read s) s.sect s.key s.store := by
  intro cfg sect k v
  split_ifs with h
  · obtain ⟨rfl, rfl⟩ := h
    exact read_assignValue_self
  · by_cases hsect : sect = ofString s.sect
    · subst hsect
      exact read_assignValue_of_key_ne fun hkey => h ⟨rfl, hkey⟩
    · exact read_assignValue_of_ne hsect

theorem Setting.length_sect_lt (s : Setting) : (ofString s.sect).length < 31 := by
  cases s <;> decide

/-! ## Lines -/

/-- The lines of a text, the empty ones included. -/
def textLines (ini : Bytes) : List Bytes := ini.splitOn (byte '\n')

/-- The line opens a bracket. -/
def Opens (line : Bytes) : Prop := (trim line).head? = some (byte '[')

/-- The line is blank or a comment. -/
def Idle (line : Bytes) : Prop :=
  trim line = [] ∨ (trim line).head? = some (byte '#') ∨ (trim line).head? = some (byte ';')

/-- The line is the header of a section: the name stands before the first `]`. -/
def Header (line name : Bytes) : Prop :=
  ∃ rest, trim line = byte '[' :: (name ++ byte ']' :: rest) ∧ byte ']' ∉ name

/-- The line assigns the text after its first `=` to the text before it. -/
def Assigns (line key value : Bytes) : Prop :=
  ¬ Opens line ∧ ¬ Idle line ∧
    ∃ left right, trim line = left ++ byte '=' :: right ∧ byte '=' ∉ left ∧
      trim left = key ∧ trim right = value

/-- The line opens no bracket that it does not close. -/
def Closed (line : Bytes) : Prop := Opens line → byte ']' ∈ trim line

/-- The last header of the lines is that of the section. -/
def InSection (ls : List Bytes) (name : Bytes) : Prop :=
  ∃ before line after, ls = before ++ line :: after ∧ Header line name ∧
    ∀ l ∈ after, ∀ n, ¬ Header l n

/-- The lines assign the value to the setting. -/
def Assigned (ls : List Bytes) (s : Setting) (value : Bytes) : Prop :=
  ∃ before line after, ls = before ++ line :: after ∧ InSection before (ofString s.sect) ∧
    Assigns line (ofString s.key) value

/-- The lines assign the value to the setting, and no later line assigns one. -/
def LastAssigned (ls : List Bytes) (s : Setting) (value : Bytes) : Prop :=
  ∃ before line after, ls = before ++ line :: after ∧ InSection before (ofString s.sect) ∧
    Assigns line (ofString s.key) value ∧
    ∀ between later rest, after = between ++ later :: rest →
      InSection (before ++ line :: between) (ofString s.sect) → ∀ v, ¬ Assigns later (ofString s.key) v

/-! ## Lines as the loop reads them -/

theorem opens_not_idle {line : Bytes} (h : Opens line) : ¬ Idle line := by
  rintro (hnil | hhash | hsemi)
  · rw [Opens, hnil] at h
    cases h
  · exact absurd (Option.some.inj (h.symm.trans hhash)) (by decide)
  · exact absurd (Option.some.inj (h.symm.trans hsemi)) (by decide)

theorem Header.opens {line name : Bytes} (h : Header line name) : Opens line := by
  obtain ⟨rest, htrim, -⟩ := h
  rw [Opens, htrim]
  rfl

theorem readLine_idle {line : Bytes} (h : Idle line) : readLine line = .ignored := if_pos h

theorem readLine_opens {line : Bytes} (h : Opens line) :
    readLine line = if byte ']' ∈ trim line
      then .header ((trim line).tail.takeWhile (· ≠ byte ']')) else .unclosed :=
  (if_neg (opens_not_idle h)).trans (if_pos h)

theorem readLine_plain {line : Bytes} (hidle : ¬ Idle line) (hopens : ¬ Opens line) :
    readLine line = if byte '=' ∈ trim line
      then .assignment (trim ((trim line).takeWhile (· ≠ byte '=')))
        (trim ((trim line).dropWhile (· ≠ byte '=')).tail)
      else .ignored :=
  (if_neg hidle).trans (if_neg hopens)

theorem header_iff {line name : Bytes} :
    Header line name ↔ Opens line ∧ byte ']' ∈ trim line ∧
      (trim line).tail.takeWhile (· ≠ byte ']') = name := by
  constructor
  · intro h
    have hopens := h.opens
    obtain ⟨rest, htrim, hname⟩ := h
    obtain ⟨-, htake, -⟩ := cut_eq_iff.mp ⟨congrArg List.tail htrim, hname⟩
    exact ⟨hopens, by simp [htrim], htake⟩
  · rintro ⟨hopens, hmem, hname⟩
    obtain ⟨tail, htrim⟩ : ∃ tail, trim line = byte '[' :: tail := List.head?_eq_some_iff.mp hopens
    rw [htrim, List.mem_cons] at hmem
    have htail : byte ']' ∈ tail := hmem.resolve_left (by decide)
    rw [htrim, List.tail_cons] at hname
    obtain ⟨hcut, hnot⟩ := cut_eq_iff.mpr ⟨htail, hname, rfl⟩
    exact ⟨_, by rw [htrim, ← hcut], hnot⟩

theorem readLine_header_iff {line name : Bytes} : readLine line = .header name ↔ Header line name := by
  rw [header_iff]
  by_cases hidle : Idle line
  · rw [readLine_idle hidle]
    exact ⟨fun h => (by cases h), fun h => absurd hidle (opens_not_idle h.1)⟩
  · by_cases hopens : Opens line
    · rw [readLine_opens hopens]
      split_ifs with hmem
      · simp only [Line.header.injEq, hopens, hmem, true_and]
      · simp only [hmem, false_and, and_false]
    · rw [readLine_plain hidle hopens]
      split_ifs <;> simp only [hopens, false_and]

theorem readLine_assignment_iff {line key value : Bytes} :
    readLine line = .assignment key value ↔ Assigns line key value := by
  by_cases hidle : Idle line
  · rw [readLine_idle hidle]
    exact ⟨fun h => (by cases h), fun h => absurd hidle h.2.1⟩
  · by_cases hopens : Opens line
    · rw [readLine_opens hopens]
      constructor
      · intro h
        split_ifs at h
      · intro h
        exact absurd hopens h.1
    · rw [readLine_plain hidle hopens]
      constructor
      · intro h
        split_ifs at h with hmem
        cases h
        obtain ⟨hcut, hnot⟩ := cut_eq_iff.mpr ⟨hmem, rfl, rfl⟩
        exact ⟨hopens, hidle, _, _, hcut, hnot, rfl, rfl⟩
      · rintro ⟨-, -, left, right, htrim, hleft, rfl, rfl⟩
        obtain ⟨hmem, htake, hdrop⟩ := cut_eq_iff.mp ⟨htrim, hleft⟩
        rw [if_pos hmem, htake, hdrop]

theorem readLine_unclosed_iff {line : Bytes} : readLine line = .unclosed ↔ ¬ Closed line := by
  by_cases hidle : Idle line
  · rw [readLine_idle hidle]
    exact ⟨fun h => (by cases h), fun h => absurd (fun ho => absurd hidle (opens_not_idle ho)) h⟩
  · by_cases hopens : Opens line
    · rw [readLine_opens hopens]
      simp only [Closed, hopens, true_implies]
      split_ifs with hmem <;> simp only [hmem, not_true_eq_false, not_false_eq_true]
    · rw [readLine_plain hidle hopens]
      simp only [Closed, hopens, false_implies, not_true_eq_false]
      split_ifs <;> simp

/-! ## Sections -/

/-- The section that the lines leave. -/
def sectionAfter : Bytes → List Bytes → Bytes
  | sect, [] => sect
  | sect, line :: rest =>
    match readLine line with
    | .header name => sectionAfter name rest
    | .ignored | .unclosed | .assignment _ _ => sectionAfter sect rest

theorem sectionAfter_append {sect : Bytes} {ls ls' : List Bytes} :
    sectionAfter sect (ls ++ ls') = sectionAfter (sectionAfter sect ls) ls' := by
  induction ls generalizing sect with
  | nil => rfl
  | cons line ls ih =>
    simp only [List.cons_append, sectionAfter]
    cases readLine line <;> exact ih

theorem assignments_append {sect : Bytes} {ls ls' : List Bytes} :
    assignments sect (ls ++ ls') = assignments sect ls ++ assignments (sectionAfter sect ls) ls' := by
  induction ls generalizing sect with
  | nil => rfl
  | cons line ls ih =>
    simp only [List.cons_append, assignments, sectionAfter]
    cases readLine line with
    | ignored => exact ih
    | header name => exact ih
    | unclosed => exact ih
    | assignment key value => exact congrArg (_ :: ·) ih

theorem Header.name_eq {line name name' : Bytes} (h : Header line name) (h' : Header line name') :
    name = name' :=
  Line.header.inj ((readLine_header_iff.mpr h).symm.trans (readLine_header_iff.mpr h'))

theorem sectionAfter_header {sect line name : Bytes} (h : Header line name) :
    sectionAfter sect [line] = name := by
  simp only [sectionAfter, readLine_header_iff.mpr h]

theorem sectionAfter_other {sect line : Bytes} (h : ∀ name, ¬ Header line name) :
    sectionAfter sect [line] = sect := by
  simp only [sectionAfter]
  split
  · next name hread => exact absurd (readLine_header_iff.mp hread) (h name)
  all_goals rfl

theorem inSection_nil {name : Bytes} : ¬ InSection [] name := by
  rintro ⟨before, line, after, heq, -⟩
  simp at heq

theorem inSection_concat {ls : List Bytes} {line name : Bytes} :
    InSection (ls ++ [line]) name ↔
      Header line name ∨ (∀ n, ¬ Header line n) ∧ InSection ls name := by
  constructor
  · rintro ⟨before, l, after, heq, hl, hafter⟩
    obtain ⟨-, rfl, -⟩ | ⟨after', rfl, rfl⟩ := Lists.concat_split heq
    · exact .inl hl
    · refine .inr ⟨hafter line (by simp), before, l, after', rfl, hl, ?_⟩
      intro l' hl'
      exact hafter l' (by simp [hl'])
  · rintro (hline | ⟨hno, before, l, after, rfl, hl, hafter⟩)
    · exact ⟨ls, line, [], rfl, hline, by simp⟩
    · refine ⟨before, l, after ++ [line], by simp, hl, ?_⟩
      intro l' hl'
      rcases List.mem_append.mp hl' with hin | hlast
      · exact hafter l' hin
      · rw [List.mem_singleton.mp hlast]
        exact hno

/-- The lines leave the section of their last header. -/
theorem sectionAfter_iff {ls : List Bytes} {name : Bytes} (hname : name ≠ []) :
    sectionAfter [] ls = name ↔ InSection ls name := by
  induction ls using List.reverseRecOn generalizing name with
  | nil => exact ⟨fun h => absurd h.symm hname, fun h => absurd h inSection_nil⟩
  | append_singleton ls line ih =>
    rw [sectionAfter_append, inSection_concat]
    by_cases hline : ∃ n, Header line n
    · obtain ⟨n, hn⟩ := hline
      rw [sectionAfter_header hn]
      constructor
      · rintro rfl
        exact .inl hn
      · rintro (hline | ⟨hno, -⟩)
        · exact hn.name_eq hline
        · exact absurd hn (hno n)
    · rw [not_exists] at hline
      rw [sectionAfter_other hline, ih hname]
      constructor
      · intro hin
        exact .inr ⟨hline, hin⟩
      · rintro (hn | ⟨-, hin⟩)
        · exact absurd hn (hline name)
        · exact hin

theorem Setting.sect_ne_nil (s : Setting) : ofString s.sect ≠ [] := by cases s <;> decide

/-! ## Last assignments -/

theorem lastValue_append {sect key : String} {as bs : List (Bytes × Bytes × Bytes)} :
    lastValue sect key (as ++ bs) = (lastValue sect key bs).or (lastValue sect key as) := by
  simp only [lastValue, List.filter_append, List.getLast?_append]
  cases (bs.filter _).getLast? <;> rfl

theorem lastAssigned_concat {ls : List Bytes} {line : Bytes} {s : Setting} {value : Bytes} :
    LastAssigned (ls ++ [line]) s value ↔
      InSection ls (ofString s.sect) ∧ Assigns line (ofString s.key) value ∨
      (InSection ls (ofString s.sect) → ∀ v, ¬ Assigns line (ofString s.key) v) ∧
        LastAssigned ls s value := by
  constructor
  · rintro ⟨before, l, after, heq, hin, hl, hlater⟩
    obtain ⟨rfl, rfl, -⟩ | ⟨after', rfl, rfl⟩ := Lists.concat_split heq
    · exact .inl ⟨hin, hl⟩
    · refine .inr ⟨hlater after' line [] (by simp), before, l, after', rfl, hin, hl, ?_⟩
      intro between later rest hafter
      exact hlater between later (rest ++ [line]) (by simp [hafter])
  · rintro (⟨hin, hl⟩ | ⟨hno, before, l, after, rfl, hin, hl, hlater⟩)
    · exact ⟨ls, line, [], rfl, hin, hl, by simp⟩
    · refine ⟨before, l, after ++ [line], by simp, hin, hl, ?_⟩
      intro between later rest hafter
      obtain ⟨rfl, rfl, -⟩ | ⟨rest', hafter, -⟩ := Lists.concat_split hafter
      · exact hno
      · exact hlater between later rest' hafter

/-- The last of the values that the loop assigns is the last one assigned. -/
theorem lastAssigned_iff {ls : List Bytes} {s : Setting} {value : Bytes} :
    LastAssigned ls s value ↔ lastValue s.sect s.key (assignments [] ls) = some value := by
  induction ls using List.reverseRecOn with
  | nil =>
    refine ⟨?_, fun h => (by cases h)⟩
    rintro ⟨before, line, after, heq, -⟩
    simp at heq
  | append_singleton ls line ih =>
    have hsect : sectionAfter [] ls = ofString s.sect ↔ InSection ls (ofString s.sect) :=
      sectionAfter_iff s.sect_ne_nil
    rw [lastAssigned_concat, ih, assignments_append, lastValue_append, ← hsect]
    simp only [assignments]
    -- only an assignment changes the last value
    cases hread : readLine line with
    | assignment k v =>
      have hassigns := readLine_assignment_iff.mp hread
      have honly : ∀ v', Assigns line (ofString s.key) v' ↔ k = ofString s.key ∧ v = v' := by
        intro v'
        rw [← readLine_assignment_iff, hread, Line.assignment.injEq]
      simp only [honly, lastValue_cons, lastValue_nil, Option.none_or]
      split_ifs with h
      · obtain ⟨hs, rfl⟩ := h
        simp [hs]
      · rw [Option.none_or]
        constructor
        · rintro (⟨hs, hk, -⟩ | ⟨-, hlast⟩)
          · exact absurd ⟨hs, hk⟩ h
          · exact hlast
        · intro hlast
          exact .inr ⟨fun hs v' hk => h ⟨hs, hk.1⟩, hlast⟩
    | ignored | header | unclosed =>
      have hnone : ∀ v, ¬ Assigns line (ofString s.key) v := by
        intro v hv
        rw [readLine_assignment_iff.mpr hv] at hread
        cases hread
      simp [hnone]

theorem assigned_concat {ls : List Bytes} {line : Bytes} {s : Setting} {value : Bytes}
    (h : Assigned (ls ++ [line]) s value) :
    InSection ls (ofString s.sect) ∧ Assigns line (ofString s.key) value ∨ Assigned ls s value := by
  obtain ⟨before, l, after, heq, hin, hl⟩ := h
  obtain ⟨rfl, rfl, -⟩ | ⟨after', rfl, rfl⟩ := Lists.concat_split heq
  · exact .inl ⟨hin, hl⟩
  · exact .inr ⟨before, l, after', rfl, hin, hl⟩

/-- Of the assignments to a setting, one is the last. -/
theorem exists_lastAssigned {ls : List Bytes} {s : Setting} {value : Bytes}
    (h : Assigned ls s value) : ∃ last, LastAssigned ls s last := by
  induction ls using List.reverseRecOn generalizing value with
  | nil =>
    obtain ⟨before, line, after, heq, -⟩ := h
    simp at heq
  | append_singleton ls line ih =>
    by_cases hline : ∃ v, InSection ls (ofString s.sect) ∧ Assigns line (ofString s.key) v
    · obtain ⟨v, hv⟩ := hline
      exact ⟨v, lastAssigned_concat.mpr (.inl hv)⟩
    · rcases assigned_concat h with hlast | hearlier
      · exact absurd ⟨value, hlast⟩ hline
      · obtain ⟨last, hlast⟩ := ih hearlier
        exact ⟨last, lastAssigned_concat.mpr (.inr ⟨fun hin v hv => hline ⟨v, hin, hv⟩, hlast⟩)⟩

/-! ## Edits that change nothing -/

/-- An edit of the lines of a text that no setting depends on. -/
inductive Edit : List Bytes → List Bytes → Prop where
  /-- White space around a line, the return of a CRLF included. -/
  | spaces {before after : List Bytes} {line line' : Bytes} :
      trim line = trim line' → Edit (before ++ line :: after) (before ++ line' :: after)
  /-- White space around a key or a value. -/
  | parts {before after : List Bytes} {line line' key value : Bytes} :
      Assigns line key value → Assigns line' key value →
      Edit (before ++ line :: after) (before ++ line' :: after)
  /-- A blank line or a comment. -/
  | idle {before after : List Bytes} {line : Bytes} :
      Idle line → Edit (before ++ line :: after) (before ++ after)
  /-- A key that is unknown, or stands in a section that is unknown. -/
  | unknown {before after : List Bytes} {line key value : Bytes} :
      Assigns line key value →
      (∀ s : Setting, InSection before (ofString s.sect) → key ≠ ofString s.key) →
      Edit (before ++ line :: after) (before ++ after)
  /-- The header of the section that the lines are in already. -/
  | again {before after : List Bytes} {line name : Bytes} :
      name ≠ [] → InSection before name → Header line name →
      Edit (before ++ line :: after) (before ++ after)
  /-- Two neighbouring lines for different keys. -/
  | swap {before after : List Bytes} {line line' key key' value value' : Bytes} :
      Assigns line key value → Assigns line' key' value' → key ≠ key' →
      Edit (before ++ line :: line' :: after) (before ++ line' :: line :: after)
  /-- Two neighbouring sections with different names. -/
  | exchange {before block block' after : List Bytes} {line line' name name' : Bytes} :
      Header line name → Header line' name' → name ≠ name' →
      (∀ l ∈ block, ∀ n, ¬ Header l n) → (∀ l ∈ block', ∀ n, ¬ Header l n) →
      (∀ l ∈ after.head?, ∃ n, Header l n) →
      Edit (before ++ (line :: block ++ (line' :: block' ++ after)))
        (before ++ (line' :: block' ++ (line :: block ++ after)))

theorem trim_concat_space {line : Bytes} {b : UInt8} (hb : isSpace b = true) :
    trim (line ++ [b]) = trim line := by
  unfold trim
  rw [List.dropWhile_append]
  split_ifs with hnil
  · rw [List.isEmpty_iff.mp hnil, List.dropWhile_cons_of_pos hb]
    rfl
  · exact List.rdropWhile_concat_pos _ _ _ hb

/-- Lines that end in a return are edits of the lines without it. -/
theorem Edit.crlf {before after : List Bytes} {line : Bytes} :
    Edit (before ++ (line ++ [byte '\r']) :: after) (before ++ line :: after) :=
  .spaces (trim_concat_space (by decide))

theorem readLine_congr {line line' : Bytes} (h : trim line = trim line') :
    readLine line = readLine line' := by
  simp only [readLine, h]

theorem assignments_no_header {sect : Bytes} {block : List Bytes}
    (h : ∀ l ∈ block, ∀ n, ¬ Header l n) :
    sectionAfter sect block = sect ∧ ∀ a ∈ assignments sect block, a.1 = sect := by
  induction block with
  | nil => exact ⟨rfl, by simp [assignments]⟩
  | cons line block ih =>
    obtain ⟨hline, hrest⟩ := List.forall_mem_cons.mp h
    obtain ⟨hsect, hall⟩ := ih hrest
    cases hread : readLine line with
    | header name => exact absurd (readLine_header_iff.mp hread) (hline name)
    | assignment k v =>
      simp only [sectionAfter, assignments, hread]
      refine ⟨hsect, ?_⟩
      rintro a (_ | ⟨_, ha⟩)
      · rfl
      · exact hall a ha
    | ignored | unclosed => simpa only [sectionAfter, assignments, hread] using ⟨hsect, hall⟩

/-- Assignments in one section say nothing about a setting of another. -/
theorem lastValue_other_section {s : Setting} {sect : Bytes} {as : List (Bytes × Bytes × Bytes)}
    (h : ∀ a ∈ as, a.1 = sect) (hne : sect ≠ ofString s.sect) :
    lastValue s.sect s.key as = none := by
  have hfilter : (as.filter fun a => a.1 = ofString s.sect ∧ a.2.1 = ofString s.key) = [] := by
    rw [List.filter_eq_nil_iff]
    intro a ha hmatch
    have hboth := of_decide_eq_true hmatch
    exact hne ((h a ha).symm.trans hboth.1)
  rw [lastValue, hfilter]
  rfl

theorem assignments_header_cons {sect line name : Bytes} {ls : List Bytes} (h : Header line name) :
    assignments sect (line :: ls) = assignments name ls := by
  simp only [assignments, readLine_header_iff.mpr h]

/-- What follows a header does not depend on the section before it. -/
theorem assignments_head_header {sect sect' : Bytes} {ls : List Bytes}
    (h : ∀ l ∈ ls.head?, ∃ n, Header l n) : assignments sect ls = assignments sect' ls := by
  cases ls with
  | nil => rfl
  | cons line ls =>
    obtain ⟨n, hn⟩ := h line rfl
    rw [assignments_header_cons hn, assignments_header_cons hn]

theorem Edit.lastValue {ls ls' : List Bytes} (h : Edit ls ls') (s : Setting) :
    lastValue s.sect s.key (assignments [] ls) = lastValue s.sect s.key (assignments [] ls') := by
  cases h with
  | spaces htrim =>
    rw [assignments_append, assignments_append]
    simp only [assignments, readLine_congr htrim]
  | parts hline hline' =>
    rw [assignments_append, assignments_append]
    simp only [assignments, readLine_assignment_iff.mpr hline, readLine_assignment_iff.mpr hline']
  | idle hidle =>
    rw [assignments_append, assignments_append]
    simp only [assignments, readLine_idle hidle]
  | @unknown before after line key value hline hkey =>
    rw [assignments_append, assignments_append]
    simp only [assignments, readLine_assignment_iff.mpr hline, lastValue_append, lastValue_cons]
    rw [if_neg, Option.or_none]
    rintro ⟨hsect, hk⟩
    exact hkey s ((sectionAfter_iff s.sect_ne_nil).mp hsect) hk
  | again hname hin hline =>
    rw [assignments_append, assignments_append, assignments_header_cons hline,
      (sectionAfter_iff hname).mpr hin]
  | @swap before after line line' key key' value value' hline hline' hne =>
    rw [assignments_append, assignments_append]
    simp only [assignments, readLine_assignment_iff.mpr hline, readLine_assignment_iff.mpr hline',
      lastValue_append, lastValue_cons]
    by_cases hk : key = ofString s.key
    · have hk' : key' ≠ ofString s.key := fun h => hne (hk.trans h.symm)
      simp only [hk', and_false, if_false, Option.or_none]
    · simp only [hk, and_false, if_false, Option.or_none]
  | @exchange before block block' after line line' name name' hline hline' hne hblock hblock' hafter =>
    simp only [assignments_append, List.cons_append, assignments_header_cons hline,
      assignments_header_cons hline', lastValue_append, (assignments_no_header hblock).1,
      (assignments_no_header hblock').1]
    rw [@assignments_head_header name' name after hafter]
    by_cases hs : name = ofString s.sect
    · have hs' : name' ≠ ofString s.sect := fun h => hne (hs.trans h.symm)
      simp only [lastValue_other_section (assignments_no_header hblock').2 hs', Option.or_none]
    · simp only [lastValue_other_section (assignments_no_header hblock).2 hs, Option.or_none]

theorem lastValue_of_edits {ls ls' : List Bytes} (h : Relation.EqvGen Edit ls ls') (s : Setting) :
    Configuration.lastValue s.sect s.key (assignments [] ls) =
      Configuration.lastValue s.sect s.key (assignments [] ls') := by
  induction h with
  | rel _ _ hedit => exact hedit.lastValue s
  | refl => rfl
  | symm _ _ _ ih => exact ih.symm
  | trans _ _ _ _ _ ih ih' => exact ih.trans ih'

/-! ## The loop stores what is assigned last -/

theorem assignments_filter {sect : Bytes} {ls : List Bytes} :
    assignments sect (ls.filter (· ≠ [])) = assignments sect ls := by
  induction ls generalizing sect with
  | nil => rfl
  | cons line ls ih =>
    by_cases hline : line = []
    · subst hline
      rw [List.filter_cons_of_neg (by simp), ih]
      rfl
    · rw [List.filter_cons_of_pos (by simpa using hline)]
      simp only [assignments, ih]

theorem assignments_lines {ini : Bytes} :
    assignments [] (lines ini) = assignments [] (textLines ini) :=
  assignments_filter

theorem closed_nil : Closed [] := fun h => by cases h

/-- The loop sees every line but the empty ones, which open no bracket. -/
theorem closed_lines_iff {ini : Bytes} :
    (∀ line ∈ lines ini, Closed line) ↔ ∀ line ∈ textLines ini, Closed line := by
  constructor
  · intro h line hline
    by_cases hnil : line = []
    · rw [hnil]
      exact closed_nil
    · exact h line (List.mem_filter.mpr ⟨hline, by simpa using hnil⟩)
  · intro h line hline
    exact h line (List.mem_of_mem_filter hline)

theorem loadLines_closed {ls : List Bytes} {sect : Bytes} {cfg : Configuration}
    (h : ∀ line ∈ ls, Closed line) : ∃ cfg', loadLines ls sect cfg = .ok cfg' := by
  induction ls generalizing sect cfg with
  | nil => exact ⟨cfg, rfl⟩
  | cons line ls ih =>
    obtain ⟨hline, hrest⟩ := List.forall_mem_cons.mp h
    rw [loadLines]
    cases hread : readLine line with
    | ignored => exact ih hrest
    | header name => exact ih hrest
    | unclosed => exact absurd hline (readLine_unclosed_iff.mp hread)
    | assignment key value => exact ih hrest

/-- A bracket that a line leaves open ends the loop. -/
theorem loadLines_unclosed {ls : List Bytes} {sect : Bytes} {cfg : Configuration}
    (h : ∃ line ∈ ls, ¬ Closed line) :
    loadLines ls sect cfg = .error "invalid section header" := by
  induction ls generalizing sect cfg with
  | nil => obtain ⟨line, hline, -⟩ := h; cases hline
  | cons line ls ih =>
    rw [loadLines]
    by_cases hclosed : Closed line
    · have hrest : ∃ line ∈ ls, ¬ Closed line := by
        obtain ⟨l, hl, hopen⟩ := h
        rcases List.mem_cons.mp hl with rfl | htail
        · exact absurd hclosed hopen
        · exact ⟨l, htail, hopen⟩
      cases hread : readLine line with
      | unclosed => rfl
      | ignored => exact ih hrest
      | header name => exact ih hrest
      | assignment key value => exact ih hrest
    · rw [readLine_unclosed_iff.mpr hclosed]

theorem ne_zero_of_lastValue {ls : List Bytes} {sect key : String} {value : Bytes} (hls : Plain ls)
    (h : lastValue sect key (assignments [] ls) = some value) : ∀ b ∈ value, b ≠ 0 := by
  obtain ⟨a, ha, rfl⟩ := Option.map_eq_some_iff.mp h
  exact ne_zero_of_mem_assignments hls (List.mem_of_mem_filter (List.mem_of_getLast? ha))

/-- What the loop leaves in the field of a setting. -/
theorem loadLines_read {bytes : Bytes} {cfg : Configuration}
    (h : loadLines (lines (ofBytes bytes)) [] defaults = .ok cfg) (s : Setting) :
    cfg.read s = ((lastValue s.sect s.key (assignments [] (textLines (ofBytes bytes)))).map
      s.convert).getD (defaults.read s) := by
  have hfield := loadLines_field (stores_setting s) s.length_sect_lt (s := []) plain_lines
    (by simp) (by simpa using h)
  rw [assignments_lines] at hfield
  rw [hfield]
  cases hlast : lastValue s.sect s.key (assignments [] (textLines (ofBytes bytes))) with
  | none => rfl
  | some value =>
    rw [← assignments_lines] at hlast
    exact s.store_eq_convert (ne_zero_of_lastValue plain_lines hlast)

/-- The settings that `config_validate` asks for. -/
def Complete (cfg : Configuration) : Prop :=
  cfg.ota.url ≠ [] ∧ cfg.ota.appVersion ≠ [] ∧ cfg.board.type ≠ [] ∧ cfg.board.name ≠ [] ∧
    0 < cfg.server.protocolVersion

theorem validate_ok_iff {cfg : Configuration} : cfg.validate = .ok () ↔ cfg.Complete := by
  unfold validate Complete
  split_ifs with hurl hversion htype hname hprotocol
  case neg => exact ⟨fun _ => ⟨hurl, hversion, htype, hname, by omega⟩, fun _ => rfl⟩
  all_goals
    refine ⟨fun h => (by cases h), ?_⟩
    rintro ⟨hurl', hversion', htype', hname', hprotocol'⟩
    first | contradiction | omega

theorem loadFromString_eq {ini : Bytes} {cfg : Configuration}
    (h : loadLines (lines ini) [] defaults = .ok cfg) :
    loadFromString true ini = cfg.validate.map fun _ => cfg := by
  simp only [loadFromString, if_true, h, bind, Except.bind, pure, Except.pure]
  cases cfg.validate <;> rfl

/-- Texts whose settings have the same last values are read alike. -/
theorem loadFromString_congr {bytes bytes' : Bytes}
    (hclosed : ∀ line ∈ textLines (ofBytes bytes), Closed line)
    (hclosed' : ∀ line ∈ textLines (ofBytes bytes'), Closed line)
    (h : ∀ s : Setting, lastValue s.sect s.key (assignments [] (textLines (ofBytes bytes))) =
      lastValue s.sect s.key (assignments [] (textLines (ofBytes bytes')))) :
    loadFromString true (ofBytes bytes) = loadFromString true (ofBytes bytes') := by
  obtain ⟨cfg, hload⟩ := @loadLines_closed _ [] defaults (closed_lines_iff.mpr hclosed)
  obtain ⟨cfg', hload'⟩ := @loadLines_closed _ [] defaults (closed_lines_iff.mpr hclosed')
  have hsame : cfg = cfg' := by
    apply ext_of_read
    intro s
    rw [loadLines_read hload, loadLines_read hload', h s]
  rw [loadFromString_eq hload, loadFromString_eq hload', hsame]

/-- The configuration holds, for every setting, the last value that the text
    assigns to it, and the default where it assigns none, whatever edits that no
    setting depends on were made; it is accepted exactly when it is complete. A
    bracket that is left open is an error. -/
theorem loads_last_assigned (bytes : Bytes) :
    ((∀ line ∈ textLines (ofBytes bytes), Closed line) →
      ∃ cfg, loadLines (lines (ofBytes bytes)) [] defaults = .ok cfg ∧
        (∀ s : Setting,
          (∃ value, LastAssigned (textLines (ofBytes bytes)) s value ∧
            cfg.read s = s.convert value) ∨
          (∀ value, ¬ Assigned (textLines (ofBytes bytes)) s value) ∧
            cfg.read s = defaults.read s) ∧
        (∀ cfg', loadFromString true (ofBytes bytes) = .ok cfg' ↔ cfg' = cfg ∧ cfg.Complete) ∧
        ∀ bytes', (∀ line ∈ textLines (ofBytes bytes'), Closed line) →
          Relation.EqvGen Edit (textLines (ofBytes bytes)) (textLines (ofBytes bytes')) →
            loadFromString true (ofBytes bytes') = loadFromString true (ofBytes bytes)) ∧
    ((∃ line ∈ textLines (ofBytes bytes), ¬ Closed line) →
      loadFromString true (ofBytes bytes) = .error "invalid section header") := by
  constructor
  · intro hclosed
    obtain ⟨cfg, hload⟩ := @loadLines_closed _ [] defaults (closed_lines_iff.mpr hclosed)
    refine ⟨cfg, hload, ?_, ?_, ?_⟩
    · intro s
      have hread := loadLines_read hload s
      cases hlast : lastValue s.sect s.key (assignments [] (textLines (ofBytes bytes))) with
      | some value =>
        rw [hlast] at hread
        exact .inl ⟨value, lastAssigned_iff.mpr hlast, hread⟩
      | none =>
        rw [hlast] at hread
        refine .inr ⟨?_, hread⟩
        intro value hassigned
        -- a setting that is assigned has a last assignment
        obtain ⟨last, hvalue⟩ := exists_lastAssigned hassigned
        rw [lastAssigned_iff.mp hvalue] at hlast
        cases hlast
    · intro cfg'
      rw [loadFromString_eq hload, ← validate_ok_iff]
      cases cfg.validate with
      | error message => exact ⟨fun h => (by cases h), fun h => (by cases h.2)⟩
      | ok u => exact ⟨fun h => ⟨(Except.ok.inj h).symm, rfl⟩, fun h => congrArg Except.ok h.1.symm⟩
    · intro bytes' hclosed' hedits
      exact loadFromString_congr hclosed' hclosed fun s => (lastValue_of_edits hedits s).symm
  · intro hopen
    have hlines : ∃ line ∈ lines (ofBytes bytes), ¬ Closed line := by
      by_contra hno
      obtain ⟨line, hline, hunclosed⟩ := hopen
      refine hunclosed (closed_lines_iff.mp ?_ line hline)
      intro l hl
      by_contra hl'
      exact hno ⟨l, hl, hl'⟩
    simp only [loadFromString, if_true, loadLines_unclosed hlines, bind, Except.bind]

end Configuration

end Xiaozhi
