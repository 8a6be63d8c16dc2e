-- SUMMARY: Lines typed on the terminal, and what becomes of one that does not fit into the window of `fgets`.
import Xiaozhi.App.MainView
import Xiaozhi.App.System
import Xiaozhi.Data.Lists
import Xiaozhi.Data.Terminal
import Xiaozhi.Threads.Alone

/-!
# Lines

`app_poll_stdin` looks at the descriptor with `poll` and reads with `fgets` into
128 bytes. A longer line arrives in pieces, and each is looked at like a line.
The pieces that are left in the buffer of stdin come when there is something on
the descriptor again.
-/

namespace Xiaozhi

namespace App

open CString

/-! ## Actions -/

/-- What a user can do. -/
inductive UserAction where
  /-- Start or stop to listen. -/
  | toggle
  | quit
  deriving DecidableEq

/-- What `app_handle_manual_line` makes of what `fgets` has read. -/
def manualAction (line : Bytes) : Option UserAction :=
  if line = ofString "q\n" ∨ line = ofString "q\r\n" then some .quit
  else if line ≠ ofString "\n" ∧ line ≠ ofString "\r\n" then none
  else some .toggle

/-- There is room in the event queue. -/
def hasRoom (w : World) : Bool := decide (¬w.events.Full)

/-- What becomes of an action when there is room in the event queue or not. To
    quit, a flag is set besides the event. -/
def acted (room : Bool) : Option UserAction → Option UserAction
  | some .toggle => if room then some .toggle else none
  | action => action

/-- The action that is taken with an event, in the state afterwards: the event has
    been accepted, or the main loop will stop anyway. -/
def eventAction (w' : World) (push : AppEvent × Bool) : Option UserAction :=
  match push.1.type with
  | .shutdown => if push.2 ∨ w'.stopRequested then some .quit else none
  | .manualStart | .manualStop => if push.2 then some .toggle else none
  | _ => none

/-- The actions taken between two states, from the events pushed. -/
def taken (w w' : World) : List UserAction :=
  (w'.pushes.take (w'.pushes.length - w.pushes.length)).reverse.filterMap (eventAction w')

section

variable {w w' : World} {line : Bytes} {ok : Answer → Prop}

theorem taken_same (h : w'.pushes = w.pushes) : taken w w' = [] := by
  rw [taken, h, Nat.sub_self]
  rfl

theorem taken_push (push : AppEvent × Bool) (h : w'.pushes = push :: w.pushes) :
    taken w w' = (eventAction w' push).toList := by
  rw [taken, h, List.length_cons, Nat.add_sub_cancel_left, List.take_succ_cons, List.take_zero,
    List.reverse_singleton, List.filterMap_cons, List.filterMap_nil]
  cases eventAction w' push <;> rfl

/-- The action is taken, if there is room for its event. -/
theorem runs_handleManualLine (hok : ∃ c, ok c) (h : (handleManualLine line).Runs ok w () w') :
    taken w w' = (acted (hasRoom w) (manualAction line)).toList := by
  unfold handleManualLine at h
  unfold manualAction
  split at h
  · next hquit =>
    rw [if_pos hquit]
    obtain rfl := (Threads.Prog.runs_modify hok).mp ((Threads.Prog.runs_modify_bind hok).mp h)
    rw [taken_push (_, (w.events.push (.make .shutdown none 0 .main)).1) rfl]
    exact congrArg Option.toList (if_pos (.inr rfl))
  · next hquit =>
    rw [if_neg hquit]
    split at h
    · next hother =>
      rw [if_pos hother]
      obtain ⟨-, rfl⟩ := Threads.Prog.runs_ret.mp h
      exact taken_same rfl
    · next henter =>
      rw [if_neg henter]
      replace h := (Threads.Prog.runs_read_bind hok).mp h
      split at h
      · obtain rfl := (Threads.Prog.runs_modify hok).mp h
        rw [taken_push (_, (w.events.push (.make .manualStop none 0 .main)).1) rfl,
          EventQueue.push_fst_eq]
        rfl
      · obtain rfl := (Threads.Prog.runs_modify hok).mp h
        rw [taken_push (_, (w.events.push (.make .manualStart none 0 .main)).1) rfl,
          EventQueue.push_fst_eq]
        rfl

theorem runs_readStdin {answer answer' : Answer}
    (h : readStdin.Runs (fun c => c = answer) w answer' w') : answer' = answer ∧ w' = w := by
  obtain ⟨⟨c, rfl, hanswer⟩, rfl⟩ := Threads.Prog.runs_ask.mp h
  refine ⟨?_, rfl⟩
  split at hanswer
  · exact (Option.some.inj (Option.ite_none_right_eq_some.mp hanswer).2).symm
  · exact (Option.some.inj hanswer).symm
  · exact (Option.some.inj hanswer).symm
  · cases hanswer

theorem runs_pollStdin (h : pollStdin.Runs (fun c => c = .input line) w () w') :
    taken w w' = (acted (hasRoom w) (manualAction line)).toList := by
  have hok : ∃ c, c = Answer.input line := ⟨_, rfl⟩
  obtain ⟨answer, w₁, hread, hrest⟩ := Threads.Prog.runs_bind.mp h
  obtain ⟨rfl, rfl⟩ := runs_readStdin hread
  exact runs_handleManualLine hok hrest

theorem runs_pollStdin_nothing (h : pollStdin.Runs (fun c => c = .nothing) w () w') :
    taken w w' = [] := by
  obtain ⟨answer, w₁, hread, hrest⟩ := Threads.Prog.runs_bind.mp h
  obtain ⟨rfl, rfl⟩ := runs_readStdin hread
  obtain ⟨-, rfl⟩ := Threads.Prog.runs_ret.mp hrest
  exact taken_same rfl

theorem exists_handleManualLine (line : Bytes) (hok : ∃ c, ok c) (w : World) :
    ∃ w', (handleManualLine line).Runs ok w () w' := by
  unfold handleManualLine
  split
  · exact ⟨_, (Threads.Prog.runs_modify_bind hok).mpr ((Threads.Prog.runs_modify hok).mpr rfl)⟩
  · split
    · exact ⟨w, Threads.Prog.runs_ret.mpr ⟨rfl, rfl⟩⟩
    · simp only [Threads.Prog.runs_read_bind hok]
      split
      · exact ⟨_, (Threads.Prog.runs_modify hok).mpr rfl⟩
      · exact ⟨_, (Threads.Prog.runs_modify hok).mpr rfl⟩

/-- A call goes through with every piece of at most 127 bytes. -/
theorem exists_pollStdin (w : World) (hlen : line.length ≤ 127) :
    ∃ w', pollStdin.Runs (fun c => c = .input line) w () w' := by
  have hok : ∃ c, c = Answer.input line := ⟨_, rfl⟩
  obtain ⟨w', hrun⟩ := exists_handleManualLine line hok w
  have hread : readStdin.Runs (· = .input line) w (.input line) w :=
    Threads.Prog.runs_ask.mpr ⟨⟨_, rfl, if_pos hlen⟩, rfl⟩
  exact ⟨w', Threads.Prog.runs_bind.mpr ⟨_, w, hread, hrun⟩⟩

end

/-! ## Pieces -/

section

variable {content : Bytes}

/-- What means something has a newline in it, and no NUL. -/
theorem manualAction_cases {line : Bytes} (h : manualAction line ≠ none) :
    byte '\n' ∈ line ∧ ∀ b ∈ line, b ≠ 0 := by
  have hlines : (line = ofString "q\n" ∨ line = ofString "q\r\n") ∨
      (line = ofString "\n" ∨ line = ofString "\r\n") := by
    unfold manualAction at h
    split at h
    · next hquit => exact .inl hquit
    · split at h
      · exact absurd rfl h
      · next henter => exact .inr (by rwa [not_and_or, not_not, not_not] at henter)
  rcases hlines with (rfl | rfl) | (rfl | rfl)
  all_goals exact ⟨by decide, by decide +kernel⟩

/-- A piece without a newline means nothing. -/
theorem manualAction_piece {piece : Bytes} (hline : byte '\n' ∉ piece) :
    manualAction (ofBytes piece) = none := by
  by_contra h
  exact hline (List.takeWhile_subset _ (manualAction_cases h).1)

/-- A line with a NUL in it means nothing. -/
theorem manualAction_line (hline : byte '\n' ∉ content) :
    manualAction (ofBytes (content ++ [byte '\n'])) = manualAction (content ++ [byte '\n']) := by
  by_cases hnul : ∀ b ∈ content, b ≠ 0
  · have hall : ∀ b ∈ content ++ [byte '\n'], b ≠ 0 := by
      intro b hb
      rcases List.mem_append.mp hb with hb | hb
      · exact hnul b hb
      · rw [List.mem_singleton.mp hb]
        decide
    rw [ofBytes_eq_self hall]
  · have hright : manualAction (content ++ [byte '\n']) = none := by
      by_contra h
      exact hnul fun b hb => (manualAction_cases h).2 b (List.mem_append_left _ hb)
    -- the string ends at the NUL, before the newline
    have hcut : ofBytes (content ++ [byte '\n']) = ofBytes content := by
      refine List.takeWhile_append.trans (if_neg fun hlen => hnul fun b hb => ?_)
      have hself := (List.takeWhile_prefix _).eq_of_length hlen
      rw [← hself] at hb
      have hne : decide (b ≠ 0) = true := List.mem_takeWhile_imp (p := fun b => decide (b ≠ 0)) hb
      exact of_decide_eq_true hne
    rw [hright, hcut, manualAction_piece hline]

end

/-! ## Lines -/

/-- A complete line, without its newline. -/
abbrev Line : Type := { content : Bytes // byte '\n' ∉ content }

/-- The line as it is typed. -/
def Line.typed (line : Line) : Bytes := line.val ++ [byte '\n']

/-- What a line should mean. -/
def lineAction (content : Bytes) : Option UserAction :=
  if content = [] ∨ content = [byte '\r'] then some .toggle
  else if content = [byte 'q'] ∨ content = [byte 'q', byte '\r'] then some .quit
  else none

/-- What is left of a line after the pieces that fill the window. -/
def lastPiece (content : Bytes) : Bytes := content.drop (127 * (content.length / 127))

theorem manualAction_eq (content : Bytes) :
    manualAction (content ++ [byte '\n']) = lineAction content := by
  have hq : ofString "q\n" = [byte 'q'] ++ [byte '\n'] := by decide
  have hqr : ofString "q\r\n" = [byte 'q', byte '\r'] ++ [byte '\n'] := by decide
  have hn : ofString "\n" = [] ++ [byte '\n'] := by decide
  have hrn : ofString "\r\n" = [byte '\r'] ++ [byte '\n'] := by decide
  unfold manualAction lineAction
  rw [hq, hqr, hn, hrn]
  simp only [ne_eq, List.append_left_inj]
  by_cases hquit : content = [byte 'q'] ∨ content = [byte 'q', byte '\r']
  · have hempty : ¬(content = [] ∨ content = [byte '\r']) := by
      rcases hquit with rfl | rfl <;> decide
    rw [if_pos hquit, if_neg hempty, if_pos hquit]
  · rw [if_neg hquit, if_neg hquit]
    by_cases hempty : content = [] ∨ content = [byte '\r']
    · rw [if_pos hempty, if_neg fun h => hempty.elim h.1 h.2]
    · rw [if_neg hempty, if_pos (not_or.mp hempty)]

theorem lastPiece_of_lt {content : Bytes} (h : content.length < 127) : lastPiece content = content := by
  rw [lastPiece, Nat.div_eq_of_lt h]
  rfl

/-- A line that means something is short, and its own last piece. -/
theorem lastPiece_of_action {content : Bytes} (h : lineAction content ≠ none) :
    lastPiece content = content := by
  refine lastPiece_of_lt ?_
  unfold lineAction at h
  split at h
  · next hempty =>
    rcases hempty with rfl | rfl <;> decide
  · split at h
    · next hquit =>
      rcases hquit with rfl | rfl <;> decide
    · exact absurd rfl h

/-- When the last piece of the line comes up, all of the line is in the buffer. -/
def Line.Waits (size : Nat) (line : Line) : Prop :=
  line.typed.length ≤ Terminal.loaded size (127 * (line.val.length / 127))

/-! ## Typing -/

/-- What has been typed, and what has come of it: the terminal; whether there was
    room in the event queue, for each line whose end has been read; and the
    actions taken, with the numbers of the lines in which they were read. -/
structure Typing where
  lines : List Line
  terminal : Terminal
  rooms : List Bool
  actions : List (Nat × UserAction)

/-- What is reached when lines are typed and `app_poll_stdin` is called, in any
    order. Each call may start in any state. The buffer of stdin has `size` bytes. -/
inductive Typing.Reach (size : Nat) : Typing → Prop where
  | start : Reach size ⟨[], ⟨[], []⟩, [], []⟩
  | types {s : Typing} (line : Line) : Reach size s →
      Reach size { s with lines := s.lines ++ [line], terminal := s.terminal.type line.typed }
  | polls {s : Typing} {w w' : World} : Reach size s →
      pollStdin.Runs (fun c => c = .nothing) w () w' →
      Reach size { s with actions := s.actions ++ (taken w w').map (Prod.mk s.rooms.length) }
  | reads {s : Typing} {w w' : World} {piece : Bytes} {t : Terminal} : Reach size s →
      s.terminal.Readable → s.terminal.fgets size 127 = some (piece, t) →
      pollStdin.Runs (fun c => c = .input (ofBytes piece)) w () w' →
      Reach size { s with
        terminal := t
        rooms := if byte '\n' ∈ piece then s.rooms ++ [hasRoom w] else s.rooms
        actions := s.actions ++ (taken w w').map (Prod.mk s.rooms.length) }

/-- The actions that the lines stand for, with the numbers of the lines. -/
def lineActions (lines : List Line) : List (Nat × UserAction) :=
  lines.zipIdx.filterMap fun p => (lineAction p.1.val).map (Prod.mk p.2)

/-- The actions that are taken when the lines have been read. -/
def lastActions (lines : List (Line × Bool)) : List (Nat × UserAction) :=
  lines.zipIdx.filterMap fun p =>
    (acted p.1.2 (lineAction (lastPiece p.1.1.val))).map (Prod.mk p.2)

/-- How far the lines have been read: all of them, or whole windows of the first one. -/
inductive Position (size : Nat) : Terminal → List Line → Prop where
  | done : Position size ⟨[], []⟩ []
  | inside {line : Line} {later : List Line} {c : Nat} : 127 * c ≤ line.val.length →
      Position size (.reading size line.typed (later.map Line.typed) (127 * c)) (line :: later)

/-- The lines `before` have been read, and the lines `rest` have not. The end of a
    line that waits in the buffer is read when another line has been typed. -/
structure Follows (size : Nat) (s : Typing) (before rest : List Line) : Prop where
  lines : s.lines = before ++ rest
  rooms : s.rooms.length = before.length
  actions : s.actions = lastActions (before.zip s.rooms)
  position : Position size s.terminal rest
  waits : ∀ line ∈ before.getLast?, line.Waits size → rest ≠ []

section

variable {size : Nat} {s : Typing} {before rest later : List Line} {line : Line} {c : Nat}

theorem typed_ne_nil : line.typed ≠ [] := List.append_ne_nil_of_right_ne_nil _ (List.cons_ne_nil _ _)

/-- The lines that come after one that has been read. -/
theorem Position.next (hsize : 0 < size) :
    Position size ⟨later.map Line.typed, []⟩ later := by
  cases later with
  | nil => exact .done
  | cons line later =>
    rw [List.map_cons, ← Terminal.reading_zero hsize typed_ne_nil]
    exact .inside (c := 0) (Nat.zero_le _)

theorem Position.type (hsize : 0 < size) {t : Terminal} (h : Position size t rest) :
    Position size (t.type line.typed) (rest ++ [line]) := by
  cases h with
  | done =>
    have h : Position size ⟨[line].map Line.typed, []⟩ [line] := Position.next hsize
    exact h
  | @inside line' later c hc =>
    have h : Position size _ (line' :: (later ++ [line])) := .inside hc
    rwa [List.map_append, List.map_singleton, ← Terminal.type_reading] at h

theorem lastActions_concat {lines : List (Line × Bool)} {room : Bool} :
    lastActions (lines ++ [(line, room)]) = lastActions lines ++
      (acted room (lineAction (lastPiece line.val))).toList.map (Prod.mk lines.length) := by
  rw [lastActions, List.zipIdx_append, List.filterMap_append, lastActions, Nat.zero_add]
  congr 1
  rw [List.zipIdx_singleton, List.filterMap_cons, List.filterMap_nil]
  cases acted room (lineAction (lastPiece line.val)) <;> rfl

/-- The rest of a line, when less than a window is left of it. -/
theorem lastPiece_eq {content : Bytes} (hle : 127 * c ≤ content.length)
    (hlt : content.length < 127 * c + 127) : content.drop (127 * c) = lastPiece content := by
  rw [lastPiece]
  congr 1
  omega

/-- A call that reads. -/
theorem Follows.reads (hsize : 0 < size) (h : Follows size s before rest)
    (hread : s.terminal.Readable) {w w' : World} {piece : Bytes} {t : Terminal}
    (hfgets : s.terminal.fgets size 127 = some (piece, t))
    (hpoll : pollStdin.Runs (fun c => c = .input (ofBytes piece)) w () w') :
    ∃ before rest, Follows size { s with
      terminal := t
      rooms := if byte '\n' ∈ piece then s.rooms ++ [hasRoom w] else s.rooms
      actions := s.actions ++ (taken w w').map (Prod.mk s.rooms.length) } before rest := by
  have htaken := runs_pollStdin hpoll
  obtain ⟨hlines, hrooms, hactions, hposition, hwaits⟩ := h
  generalize hterminal : s.terminal = terminal at *
  cases hposition with
  | done => exact absurd rfl hread
  | @inside line later c hle =>
    by_cases hmore : 127 * c + 127 ≤ line.val.length
    · -- a window is filled with bytes of the line
      rw [Line.typed, Terminal.fgets_piece hsize line.property hmore] at hfgets
      obtain ⟨rfl, rfl⟩ := Prod.mk.inj (Option.some.inj hfgets)
      have hpiece : byte '\n' ∉ (line.val.drop (127 * c)).take 127 :=
        fun h => line.property (List.mem_of_mem_drop (List.mem_of_mem_take h))
      rw [manualAction_piece hpiece] at htaken
      rw [htaken, if_neg hpiece]
      refine ⟨before, line :: later, hlines, hrooms, ?_, ?_, hwaits⟩
      · exact (List.append_nil _).trans hactions
      · exact .inside (c := c + 1) hmore
    · -- the end of the line
      have hlt : line.val.length < 127 * c + 127 := by omega
      rw [Line.typed, Terminal.fgets_end hsize line.property hle hlt] at hfgets
      obtain ⟨rfl, rfl⟩ := Prod.mk.inj (Option.some.inj hfgets)
      have hrest : byte '\n' ∉ line.val.drop (127 * c) :=
        fun h => line.property (List.mem_of_mem_drop h)
      rw [manualAction_line hrest, manualAction_eq, lastPiece_eq hle hlt] at htaken
      rw [if_pos (List.mem_append_right _ List.mem_cons_self), htaken]
      refine ⟨before ++ [line], later, ?_, ?_, ?_, Position.next hsize, fun line' hlast hw => ?_⟩
      · rw [hlines, List.append_assoc]
        rfl
      · rw [List.length_append, List.length_append, hrooms]
        rfl
      · have hlength : (before.zip s.rooms).length = s.rooms.length := by
          rw [List.length_zip, hrooms, Nat.min_self]
        rw [List.zip_append hrooms.symm, hactions, List.zip_cons_cons, List.zip_nil_right,
          lastActions_concat, hlength]
      · -- all of the line was in the buffer, so another one is on the descriptor
        rw [List.getLast?_concat] at hlast
        obtain rfl := Option.some.inj hlast
        rintro rfl
        refine hread ?_
        have hloaded : line.typed.length ≤ Terminal.loaded size (127 * c) := by
          have hc : line.val.length / 127 = c := by omega
          exact hc ▸ hw
        rw [Terminal.reading, if_pos hloaded]
        rfl

/-- What the calls have made of the lines. -/
theorem Typing.Reach.follows (hsize : 0 < size) (h : s.Reach size) :
    ∃ before rest, Follows size s before rest := by
  induction h with
  | start => exact ⟨[], [], rfl, rfl, rfl, .done, fun _ h => nomatch h⟩
  | types line h ih =>
    obtain ⟨before, rest, hlines, hrooms, hactions, hposition, -⟩ := ih
    refine ⟨before, rest ++ [line], ?_, hrooms, hactions, hposition.type hsize, fun _ _ _ => ?_⟩
    · rw [hlines, List.append_assoc]
    · exact List.append_ne_nil_of_right_ne_nil _ (List.cons_ne_nil _ _)
  | polls h hpoll ih =>
    obtain ⟨before, rest, hlines, hrooms, hactions, hposition, hwaits⟩ := ih
    refine ⟨before, rest, hlines, hrooms, ?_, hposition, hwaits⟩
    rw [runs_pollStdin_nothing hpoll]
    exact (List.append_nil _).trans hactions
  | reads h hread hfgets hpoll ih =>
    obtain ⟨before, rest, hfollows⟩ := ih
    exact hfollows.reads hsize hread hfgets hpoll

/-! ## The lines and their actions -/

/-- An empty line finds room in the event queue. A line that does not fit into the
    window leaves nothing that means something; or what it leaves waits in the
    buffer, since nothing is typed after it; or the event queue is full. -/
structure Typing.Right (s : Typing) (size i : Nat) (line : Line) : Prop where
  room : lineAction line.val = some .toggle → s.rooms[i]? = some true
  rest : 127 ≤ line.val.length → lineAction (lastPiece line.val) ≠ none →
    (i + 1 = s.lines.length ∧ line.Waits size) ∨
    (lineAction (lastPiece line.val) = some .toggle ∧ s.rooms[i]? = some false)

/-- A line that means something fits into the window. -/
theorem lineAction_of_le {content : Bytes} (h : 127 ≤ content.length) : lineAction content = none := by
  by_contra hne
  have hself := congrArg List.length (lastPiece_of_action hne)
  rw [lastPiece, List.length_drop] at hself
  omega

/-- What is made of a line that has been read is what it stands for. -/
theorem acted_iff {room : Bool} : acted room (lineAction (lastPiece line.val)) = lineAction line.val ↔
    (lineAction line.val = some .toggle → room = true) ∧
    (127 ≤ line.val.length → lineAction (lastPiece line.val) ≠ none →
      lineAction (lastPiece line.val) = some .toggle ∧ room = false) := by
  by_cases hlen : line.val.length < 127
  · rw [lastPiece_of_lt hlen]
    cases lineAction line.val with
    | none => exact iff_of_true rfl ⟨nofun, fun h => absurd hlen (Nat.not_lt.mpr h)⟩
    | some action => cases action <;> cases room <;> simp [acted, hlen]
  · rw [lineAction_of_le (Nat.not_lt.mp hlen)]
    cases lineAction (lastPiece line.val) with
    | none => exact iff_of_true rfl ⟨nofun, fun _ h => absurd rfl h⟩
    | some action => cases action <;> cases room <;> simp [acted, Nat.not_lt.mp hlen]

/-- When nothing is left on the descriptor, at most the last line has not been
    read, and its rest waits in the buffer. -/
theorem Position.idle {t : Terminal} (hsize : 0 < size) (h : Position size t rest)
    (hidle : ¬t.Readable) : rest = [] ∨ ∃ line, rest = [line] ∧ 127 ≤ line.val.length ∧
      line.Waits size := by
  cases h with
  | done => exact .inl rfl
  | @inside line later c hle =>
    obtain ⟨hline, hlater⟩ := List.append_eq_nil_iff.mp (not_not.mp hidle)
    have hloaded : line.typed.length ≤ Terminal.loaded size (127 * c) := by
      by_contra h
      rw [if_neg h] at hline
      cases hline
    refine .inr ⟨line, by rw [List.map_eq_nil_iff.mp hlater], ?_, ?_⟩
    · have hpos : c ≠ 0 := by
        rintro rfl
        rw [Nat.mul_zero, Terminal.loaded_zero hsize] at hloaded
        exact typed_ne_nil (List.eq_nil_of_length_eq_zero (Nat.le_zero.mp hloaded))
      omega
    · exact hloaded.trans (Terminal.loaded_mono (by omega))

/-- The lines that have not been read stand for nothing. -/
theorem lineActions_eq (hlines : s.lines = before ++ rest) (hrooms : s.rooms.length = before.length)
    (hrest : rest = [] ∨ ∃ line, rest = [line] ∧ 127 ≤ line.val.length ∧ line.Waits size) :
    lineActions s.lines = (before.zip s.rooms).zipIdx.filterMap fun p =>
      (lineAction p.1.1.val).map (Prod.mk p.2) := by
  have hbefore : lineActions s.lines = lineActions before := by
    obtain rfl | ⟨line, rfl, hlen, -⟩ := hrest
    · rw [hlines, List.append_nil]
    · rw [hlines, lineActions, List.zipIdx_append, List.filterMap_append, List.zipIdx_singleton,
        List.filterMap_cons, lineAction_of_le hlen]
      exact List.append_nil _
  have hfst : before = (before.zip s.rooms).map Prod.fst := (List.map_fst_zip hrooms.ge).symm
  rw [hbefore, lineActions]
  conv_lhs => rw [hfst]
  rw [List.zipIdx_map, List.filterMap_map]
  rfl

/-- For all lines, in whatever order they are typed and `app_poll_stdin` is called:
    when nothing is left on the descriptor, the actions taken are those of the
    lines, one for each line that means something and in their order, exactly if
    each line finds what it needs. -/
theorem line_actions_iff (hsize : 0 < size) (h : s.Reach size) (hidle : ¬s.terminal.Readable) :
    s.actions = lineActions s.lines ↔ ∀ i line, s.lines[i]? = some line → s.Right size i line := by
  obtain ⟨before, rest, hlines, hrooms, hactions, hposition, hwaits⟩ := h.follows hsize
  -- all lines have been read, except perhaps the end of the last one, which waits in the buffer
  have hrest := hposition.idle hsize hidle
  rw [hactions, lineActions_eq hlines hrooms hrest]
  refine (Lists.filterMap_zipIdx_eq_iff (f := fun p : Line × Bool =>
    acted p.2 (lineAction (lastPiece p.1.val))) (g := fun p => lineAction p.1.val)).trans
    ⟨fun hall i line hline => ?_, fun hright p hp => ?_⟩
  · by_cases hi : i < before.length
    · rw [hlines, List.getElem?_append_left hi] at hline
      obtain ⟨room, hroom⟩ : ∃ room, s.rooms[i]? = some room :=
        ⟨_, List.getElem?_eq_getElem (hrooms ▸ hi)⟩
      have hzip : (before.zip s.rooms)[i]? = some (line, room) :=
        List.getElem?_zip_eq_some.mpr ⟨hline, hroom⟩
      obtain ⟨htoggle, hpiece⟩ := acted_iff.mp (hall _ (List.mem_of_getElem? hzip))
      refine ⟨fun h => hroom.trans (congrArg some (htoggle h)), fun hlen hne => .inr ?_⟩
      obtain ⟨haction, hfull⟩ := hpiece hlen hne
      exact ⟨haction, hroom.trans (congrArg some hfull)⟩
    · -- the line whose end has not been read
      rw [hlines, List.getElem?_append_right (Nat.not_lt.mp hi)] at hline
      obtain rfl | ⟨line', rfl, hlen, hw⟩ := hrest
      · cases hline
      · obtain ⟨hi', rfl⟩ := List.getElem?_eq_some_iff.mp hline
        have hlast : i = before.length := by
          rw [List.length_singleton] at hi'
          omega
        subst hlast
        simp only [Nat.sub_self, List.getElem_cons_zero] at hw hlen ⊢
        refine ⟨fun h => ?_, fun _ _ => .inl ⟨?_, hw⟩⟩
        · cases (lineAction_of_le hlen).symm.trans h
        · rw [hlines, List.length_append]
          rfl
  · obtain ⟨i, hi⟩ := List.mem_iff_getElem?.mp hp
    obtain ⟨hline, hroom⟩ := List.getElem?_zip_eq_some.mp hi
    obtain ⟨hlt, -⟩ := List.getElem?_eq_some_iff.mp hline
    have hmem : s.lines[i]? = some p.1 := by
      rw [hlines, List.getElem?_append_left hlt]
      exact hline
    obtain ⟨htoggle, hpiece⟩ := hright i p.1 hmem
    refine acted_iff.mpr ⟨fun h => ?_, fun hlen hne => ?_⟩
    · exact Option.some.inj (hroom.symm.trans (htoggle h))
    · obtain ⟨hlast, hw⟩ | ⟨haction, hfull⟩ := hpiece hlen hne
      · -- the last line that has been read is not the last one
        rw [hlines, List.length_append] at hlast
        have hnil : rest = [] := List.eq_nil_of_length_eq_zero (by omega)
        have hget : before.getLast? = some p.1 := by
          rw [List.getLast?_eq_getElem?, ← hline]
          congr 1
          omega
        exact absurd hnil (hwaits p.1 hget hw)
      · exact ⟨haction, Option.some.inj (hroom.symm.trans hfull)⟩

/-! ## Samples -/

/-- A call reads what is there. -/
theorem Typing.Reach.read {lines : List Line} {t t' : Terminal} {rooms : List Bool}
    {actions : List (Nat × UserAction)} (w : World) (piece : Bytes)
    (h : Typing.Reach size ⟨lines, t, rooms, actions⟩) (hread : t.Readable)
    (hfgets : t.fgets size 127 = some (piece, t')) (hlen : piece.length ≤ 127) :
    ∃ actions, Typing.Reach size
      ⟨lines, t', if byte '\n' ∈ piece then rooms ++ [hasRoom w] else rooms, actions⟩ := by
  have hshort : (ofBytes piece).length ≤ 127 := (List.takeWhile_prefix _).length_le.trans hlen
  obtain ⟨w', hrun⟩ := exists_pollStdin w hshort
  exact ⟨_, .reads h hread hfgets hrun⟩

/-- Where the actions start. -/
def idleWorld : World := .init ⟨1, 16000, 1200, 500⟩

/-- An empty line, and a line of the letter q. -/
def emptyThenQuit : List Line := [⟨[], by decide⟩, ⟨[byte 'q'], by decide⟩]

theorem line_actions_iff_empty : ∃ s : Typing, s.Reach 1024 ∧ ¬s.terminal.Readable ∧
    s.actions = [(0, .toggle), (1, .quit)] := by
  have htyped : Typing.Reach 1024
      ⟨emptyThenQuit, ⟨[[byte '\n'], [byte 'q', byte '\n']], []⟩, [], []⟩ :=
    .types ⟨[byte 'q'], by decide⟩ (.types ⟨[], by decide⟩ .start)
  obtain ⟨_, hfirst⟩ : ∃ actions, Typing.Reach 1024
      ⟨emptyThenQuit, ⟨[[byte 'q', byte '\n']], []⟩, [true], actions⟩ :=
    htyped.read idleWorld [byte '\n'] (by decide) rfl (by decide)
  obtain ⟨actions, hboth⟩ : ∃ actions, Typing.Reach 1024
      ⟨emptyThenQuit, ⟨[], []⟩, [true, true], actions⟩ :=
    hfirst.read idleWorld [byte 'q', byte '\n'] (by decide) rfl (by decide)
  have hidle : ¬Terminal.Readable ⟨[], []⟩ := by decide
  refine ⟨_, hboth, hidle, (line_actions_iff (by decide) hboth hidle).mpr fun i line hline => ?_⟩
  have hall : ∀ line ∈ emptyThenQuit, line.val.length < 127 := by decide
  have hlen := hall line (List.mem_of_getElem? hline)
  refine ⟨fun _ => ?_, fun hle => absurd hlen (Nat.not_lt.mpr hle)⟩
  have hi : i < 2 := (List.getElem?_eq_some_iff.mp hline).1
  match i with
  | 0 => rfl
  | 1 => rfl

/-- A line that fills the window is read in two calls, when another line has been
    typed after it. -/
theorem reach_fullWindow {content : Bytes} (hcontent : byte '\n' ∉ content)
    (hlength : content.length = 127) : ∃ actions, Typing.Reach 1024
      ⟨[⟨content, hcontent⟩, ⟨[], by decide⟩], ⟨[], []⟩, [true, true], actions⟩ := by
  have hnonempty : content ++ [byte '\n'] ≠ [] :=
    List.append_ne_nil_of_right_ne_nil _ (List.cons_ne_nil _ _)
  have htyped : Typing.Reach 1024 ⟨[⟨content, hcontent⟩, ⟨[], by decide⟩],
      ⟨(content ++ [byte '\n']) :: [[byte '\n']], []⟩, [], []⟩ :=
    .types ⟨[], by decide⟩ (.types ⟨content, hcontent⟩ .start)
  have hwaits : Terminal.Readable ⟨(content ++ [byte '\n']) :: [[byte '\n']], []⟩ :=
    List.cons_ne_nil _ _
  rw [← Terminal.reading_zero (by decide : 0 < 1024) hnonempty] at htyped hwaits
  -- the window is filled with bytes of the line
  obtain ⟨_, hfirst⟩ := htyped.read idleWorld _ hwaits
    (Terminal.fgets_piece (c := 0) (by decide) hcontent (by rw [hlength])) (List.length_take_le _ _)
  rw [List.drop_zero, if_neg fun h => hcontent (List.mem_of_mem_take h)] at hfirst
  -- what is left is the newline
  obtain ⟨_, hsecond⟩ := hfirst.read idleWorld _
    (List.append_ne_nil_of_right_ne_nil _ (List.cons_ne_nil _ _))
    (Terminal.fgets_end (by decide) hcontent hlength.ge (by rw [hlength]; decide))
    (by rw [List.drop_of_length_le hlength.le]; decide)
  rw [if_pos (List.mem_append_right _ List.mem_cons_self)] at hsecond
  exact hsecond.read idleWorld [byte '\n'] (by decide) rfl (by decide)

theorem full_window_toggles : ∃ s : Typing, s.Reach 1024 ∧ ¬s.terminal.Readable ∧
    s.actions ≠ lineActions s.lines := by
  have hcontent : byte '\n' ∉ List.replicate 127 (byte 'x') := by decide +kernel
  have hlength : (List.replicate 127 (byte 'x')).length = 127 := List.length_replicate
  obtain ⟨_, hreach⟩ := reach_fullWindow hcontent hlength
  have hidle : ¬Terminal.Readable ⟨[], []⟩ := by decide
  refine ⟨_, hreach, hidle, fun heq => ?_⟩
  have hright := (line_actions_iff (by decide) hreach hidle).mp heq 0 _ rfl
  have hempty : lineAction (lastPiece (List.replicate 127 (byte 'x'))) ≠ none := by decide +kernel
  obtain ⟨hlast, -⟩ | ⟨-, hfull⟩ := hright.rest hlength.ge hempty
  · nomatch hlast
  · nomatch hfull

end

end App

end Xiaozhi
