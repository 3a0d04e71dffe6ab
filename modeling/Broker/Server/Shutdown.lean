import Broker.Server.Routing

/-!
# How the server can end

Apart from a failing system call the process leaves its main loop in two ways: a read of
standard input returns the exit command, or a send meets a connection that its peer has
reset. The command is recognised wherever a read begins, also inside a line.
-/

namespace Broker.Server
open Broker.Base Broker.Net Broker.Topic

/-- The line `exit`. -/
def exitLine : Bytes := ascii "exit".toList

/-- The operator has entered a complete line `exit`. -/
def ExitEntered (stdin : Stdin) : Prop := exitLine ∈ completeLines stdin.entered

/-- The operator has entered a longer line that ends in `exit` where a read of it begins. -/
def OverlongExit (stdin : Stdin) : Prop :=
  ∃ front, front ≠ [] ∧ maxStdinLen - 1 ∣ front.length ∧
    front ++ exitLine ∈ completeLines stdin.entered

/-- The unread input goes on behind some complete lines and some whole reads of another one,
unless the end of the input has been read. -/
def BetweenReads (stdin : Stdin) : Prop :=
  ∃ done line, (∀ more,
      completeLines (stdin.entered ++ more) = done ++ linesLoop line (stdin.pending ++ more)) ∧
    (maxStdinLen - 1 ∣ line.length ∨ stdin.closed = true ∧ stdin.pending = [])

private theorem exitCommand_eq : exitCommand = exitLine ++ [newline] := by decide

private theorem newline_notMem_exitLine : newline ∉ exitLine := by decide

private theorem eq_exitCommand {line : Bytes} (h : cString line = exitCommand)
    (hline : newline ∉ line ∨ ∃ part, newline ∉ part ∧ line = part ++ [newline]) :
    line = exitCommand := by
  obtain ⟨rest, hr⟩ : exitCommand <+: line := h ▸ List.takeWhile_prefix _
  obtain hn | ⟨part, hp, rfl⟩ := hline
  · refine absurd (hr ▸ List.mem_append_left rest ?_) hn
    rw [exitCommand_eq]
    exact List.mem_append_right _ List.mem_cons_self
  · -- Both spellings of the line begin with their only complete line.
    have hlines : [part] = exitLine :: linesLoop [] rest := by
      calc [part] = linesLoop [] (part ++ [newline]) := by
            rw [linesLoop_append _ hp, linesLoop_newline, List.nil_append, linesLoop]
        _ = linesLoop [] (exitLine ++ newline :: rest) := by
            rw [← hr, exitCommand_eq, List.append_assoc]
            rfl
        _ = exitLine :: linesLoop [] rest := by
            rw [linesLoop_append _ newline_notMem_exitLine, linesLoop_newline, List.nil_append]
    rw [(List.cons.inj hlines).1, exitCommand_eq]

private theorem BetweenReads.enter {stdin : Stdin} (h : BetweenReads stdin)
    (hc : stdin.closed = false) (bytes : Bytes) : BetweenReads (stdin.enter bytes) := by
  obtain ⟨done, line, hlines, hl | ⟨ht, -⟩⟩ := h
  · refine ⟨done, line, fun more ↦ ?_, .inl hl⟩
    have hm := hlines (bytes ++ more)
    simpa only [Stdin.enter, List.append_assoc] using hm
  · rw [hc] at ht
    cases ht

private theorem BetweenReads.close {stdin : Stdin} (h : BetweenReads stdin) :
    BetweenReads stdin.close := by
  obtain ⟨done, line, hlines, hl⟩ := h
  exact ⟨done, line, hlines, hl.imp_right fun hn ↦ ⟨rfl, hn.2⟩⟩

private theorem BetweenReads.line {stdin : Stdin} {taken rest : Bytes} (h : BetweenReads stdin)
    (ht : fgetsLine (maxStdinLen - 1) stdin.pending = some (taken, rest)) :
    BetweenReads { stdin with pending := rest } ∧
      (isExit (some taken) = true → ExitEntered stdin ∨ OverlongExit stdin) := by
  obtain ⟨done, front, hlines, hfront⟩ := h
  obtain ⟨hp, hcases⟩ := fgetsLine_eq_some ht
  have hdvd : maxStdinLen - 1 ∣ front.length := by
    obtain hd | ⟨-, hn⟩ := hfront
    · exact hd
    · rw [hn] at ht
      simp [fgetsLine, maxStdinLen] at ht
  constructor
  · obtain ⟨hn, hl⟩ | ⟨part, hn, rfl⟩ := hcases
    · refine ⟨done, front ++ taken, fun more ↦ ?_, .inl ?_⟩
      · rw [hlines, hp, List.append_assoc, linesLoop_append _ hn]
      · rw [List.length_append, hl]
        exact Nat.dvd_add hdvd (Nat.dvd_refl _)
    · refine ⟨done ++ [front ++ part], [], fun more ↦ ?_, .inl (Nat.dvd_zero _)⟩
      rw [hlines, hp, List.append_assoc, List.append_assoc, linesLoop_append _ hn,
        List.singleton_append, linesLoop_newline, List.append_assoc]
      rfl
  · intro hexit
    have he : taken = exitCommand :=
      eq_exitCommand (of_decide_eq_true hexit) (hcases.imp_left And.left)
    have hmem : front ++ exitLine ∈ completeLines stdin.entered := by
      have hall := hlines []
      rw [List.append_nil, List.append_nil, hp, he, exitCommand_eq, List.append_assoc,
        linesLoop_append _ newline_notMem_exitLine, List.singleton_append,
        linesLoop_newline] at hall
      rw [hall]
      exact List.mem_append_right _ List.mem_cons_self
    by_cases hf : front = []
    · exact .inl (by rwa [hf] at hmem)
    · exact .inr ⟨front, hf, hdvd, hmem⟩

private theorem BetweenReads.rest {stdin : Stdin} (h : BetweenReads stdin)
    (hclosed : stdin.closed = true) (ht : fgetsLine (maxStdinLen - 1) stdin.pending = none) :
    BetweenReads { stdin with pending := [] } ∧ isExit (some stdin.pending) = false := by
  obtain ⟨done, front, hlines, -⟩ := h
  have hn := newline_notMem_of_fgetsLine ht
  constructor
  · refine ⟨done, front ++ stdin.pending, fun more ↦ ?_, .inr ⟨hclosed, rfl⟩⟩
    rw [hlines, linesLoop_append _ hn]
    rfl
  · refine eq_false_of_ne_true fun hexit ↦ ?_
    have he := eq_exitCommand (of_decide_eq_true hexit) (.inl hn)
    rw [he, exitCommand_eq] at hn
    exact hn (List.mem_append_right _ List.mem_cons_self)

private theorem BetweenReads.fgets {stdin later : Stdin} {line : Option Bytes}
    (h : BetweenReads stdin) (hr : fgets maxStdinLen stdin = some (line, later)) :
    BetweenReads later ∧ later.entered = stdin.entered ∧
      (isExit line = true → ExitEntered stdin ∨ OverlongExit stdin) := by
  unfold Server.fgets at hr
  split at hr
  · next taken rest ht =>
    cases hr
    obtain ⟨hlater, hexit⟩ := h.line ht
    exact ⟨hlater, rfl, hexit⟩
  · next ht =>
    split at hr
    · cases hr
    · next hc =>
      split at hr
      · cases hr
        exact ⟨h, rfl, fun hexit ↦ nomatch hexit⟩
      · cases hr
        obtain ⟨hlater, hnot⟩ := h.rest (by simpa using hc) ht
        refine ⟨hlater, rfl, fun hexit ↦ ?_⟩
        rw [hnot] at hexit
        cases hexit

/-- Some frame of the step meets a connection that its peer has reset. -/
def State.MeetsReset (s : State) (event : Event) : Prop :=
  ∃ fd client frame sock, s.Writes event fd client frame ∧ s.kernel.socket fd = some sock ∧
    Socket.resetAhead frame sock.answers = true

/-- `poll`, `accept` and `setsockopt` do not fail. -/
def Event.sound : Event → Bool
  | pollFails => false
  | acceptFails => false
  | nagleFails => false
  | _ => true

namespace Sessions

variable {s t : State}

private theorem not_meetsReset {event : Event}
    (h : ∀ fd client frame, ¬ s.Writes event fd client frame) : ¬ s.MeetsReset event := by
  rintro ⟨fd, client, frame, sock, hw, -, -⟩
  exact h fd client frame hw

/-- A step kills the process exactly when one of its frames meets a reset connection. -/
theorem killed_iff (h : Sessions s) {event : Event} (ht : s.step event = some t) :
    t.place = .killed ↔ s.MeetsReset event := by
  cases h.move ht with
  | typed hleft hclosed =>
    refine iff_of_false (fun hk ↦ ?_) (not_meetsReset fun _ _ _ hw ↦ nomatch hw)
    rw [show s.place = .killed from hk] at hleft
    cases hleft
  | stdinClosed hleft =>
    refine iff_of_false (fun hk ↦ ?_) (not_meetsReset fun _ _ _ hw ↦ nomatch hw)
    rw [show s.place = .killed from hk] at hleft
    cases hleft
  | command hplace hread =>
    refine iff_of_false (fun hk ↦ ?_) (not_meetsReset fun _ _ _ hw ↦ nomatch hw)
    dsimp only at hk
    split at hk <;> cases hk
  | idle hevent hfds hleft hphase hposition =>
    refine iff_of_false (fun hk ↦ ?_) (not_meetsReset fun _ _ _ hw ↦ ?_)
    · dsimp only at hk
      rw [hk] at hleft
      cases hleft
    · cases hw <;> cases hevent
  | die hevent =>
    refine iff_of_false (fun hk ↦ nomatch hk) (not_meetsReset fun _ _ _ hw ↦ ?_)
    cases hw <;> simp at hevent
  | @route datagram stale order sent hplace hnodup horder hsent =>
    subst hsent
    have hkill := Kernel.sendEach_killed_iff (.message (messageResponse datagram stale)) s.kernel
      (h.nodup_recipients hnodup)
    constructor
    · intro hk
      obtain ⟨client, fd, sock, hm, hs, ha⟩ := hkill.mp (by
        by_contra hn
        dsimp only at hk
        rw [if_neg hn] at hk
        cases hk)
      exact ⟨fd, client, _, sock, .message hm, hs, ha⟩
    · rintro ⟨fd, client, frame, sock, ⟨hm⟩, hs, ha⟩
      exact if_pos (hkill.mpr ⟨client, fd, sock, hm, hs, ha⟩)
  | refuse hplace hopen =>
    exact iff_of_false (fun hk ↦ nomatch hk) (not_meetsReset fun _ _ _ hw ↦ nomatch hw)
  | connect hplace hopen hread hfree =>
    exact iff_of_false (fun hk ↦ nomatch hk) (not_meetsReset fun _ _ _ hw ↦ nomatch hw)
  | ignore hreading hrecv hlength hnone =>
    refine iff_of_false (fun hk ↦ nomatch hk) (not_meetsReset fun fd client frame hw ↦ ?_)
    obtain ⟨-, -, bytes, change, hl, he, hq, -⟩ := hw.of_reading hreading hrecv
    cases he
    exact hnone change hq
  | @act i fd id data sock stack bytes inbox change sent hreading hrecv hlength hrequested hsent =>
    subst hsent
    have hkill := ((sock.consume inbox).execute (.decode bytes hlength)).sendFrame_killed_iff id
      (change.reply (.decode bytes hlength))
    constructor
    · intro hk
      have ha := hkill.mp (by
        by_contra hn
        dsimp only at hk
        rw [if_neg hn] at hk
        cases hk)
      exact ⟨fd, id, _, sock, .acknowledge hreading hrecv hlength hrequested, hreading.socket, ha⟩
    · rintro ⟨fd', client, frame, found, hw, hs, ha⟩
      obtain ⟨rfl, rfl, bytes', change', hl, he, hq, rfl⟩ := hw.of_reading hreading hrecv
      cases he
      cases hreading.socket.symm.trans hs
      exact if_pos (hkill.mpr (hrequested.unique hq ▸ ha))
  | short hreading hrecv hresult =>
    refine iff_of_false (fun hk ↦ nomatch hk) (not_meetsReset fun fd client frame hw ↦ ?_)
    obtain ⟨-, -, bytes, change, hl, rfl, -, -⟩ := hw.of_reading hreading hrecv
    exact length_ne_of_short hresult rfl hl
  | disconnect hreading hrecv hresult =>
    refine iff_of_false (fun hk ↦ nomatch hk) (not_meetsReset fun fd client frame hw ↦ ?_)
    obtain ⟨-, -, bytes, change, hl, rfl, -, -⟩ := hw.of_reading hreading hrecv
    exact length_ne_of_end hresult rfl hl

/-- A step ends the process by the exit command, by a reset connection, or by `DIE`. -/
theorem left_cases (h : Sessions s) (hi : BetweenReads s.stdin) {event : Event}
    (ht : s.step event = some t) (hl : t.place.left = true) :
    (ExitEntered s.stdin ∨ OverlongExit s.stdin) ∧ t.stdin.entered = s.stdin.entered ∨
      s.MeetsReset event ∨ event.sound = false := by
  by_cases hk : t.place = .killed
  · exact .inr (.inl ((h.killed_iff ht).mp hk))
  · cases h.move ht with
    | typed hleft hclosed => exact absurd hl (by simpa using hleft)
    | stdinClosed hleft => exact absurd hl (by simpa using hleft)
    | command hplace hread =>
      obtain ⟨-, he, hexit⟩ := hi.fgets hread
      dsimp only at hl
      split at hl
      · next hx => exact .inl ⟨hexit hx, he⟩
      · cases hl
    | idle hevent hfds hleft hphase hposition => exact absurd hl (by simpa using hleft)
    | die hevent => obtain rfl | rfl := hevent <;> exact .inr (.inr rfl)
    | route hplace hnodup horder hsent =>
      dsimp only at hl hk
      split at hl
      · next hx => exact absurd (if_pos hx) hk
      · cases hl
    | act hreading hrecv hlength hrequested hsent =>
      dsimp only at hl hk
      split at hl
      · next hx => exact absurd (if_pos hx) hk
      · cases hl
    | refuse hplace hopen => cases hl
    | connect hplace hopen hread hfree => cases hl
    | ignore hreading hrecv hlength hnone => cases hl
    | short hreading hrecv hresult => cases hl
    | disconnect hreading hrecv hresult => cases hl

/-- Every step leaves the reader of standard input between reads. -/
theorem betweenReads_step (h : Sessions s) (hi : BetweenReads s.stdin) {event : Event}
    (ht : s.step event = some t) : BetweenReads t.stdin := by
  cases h.move ht with
  | typed hleft hclosed => exact hi.enter hclosed _
  | stdinClosed hleft => exact hi.close
  | command hplace hread => exact (hi.fgets hread).1
  | _ => exact hi

end Sessions

/-- In every run without failing system calls in which no frame meets a reset connection, and
without a longer input line that ends in `exit` where a read begins, the main loop is left
only after a complete line `exit`. The first condition is exact: a step kills the process
exactly when one of its frames meets a reset connection. -/
theorem left_only_by_exit {udpfd listenfd : Fd} {s : State}
    (h : Reaches State.step (fun s event ↦ event.sound = true ∧ ¬ s.MeetsReset event)
      (State.initial udpfd listenfd) s) :
    (¬ OverlongExit s.stdin → s.place.left = true → ExitEntered s.stdin) ∧
    ∀ event t, s.step event = some t → (t.place = .killed ↔ s.MeetsReset event) := by
  have hinv : Sessions s ∧ BetweenReads s.stdin ∧
      (s.place.left = true → ExitEntered s.stdin ∨ OverlongExit s.stdin) := by
    refine h.invariant (P := fun s ↦ Sessions s ∧ BetweenReads s.stdin ∧
      (s.place.left = true → ExitEntered s.stdin ∨ OverlongExit s.stdin)) ?_ ?_
    · refine ⟨Sessions.initial _ _, ⟨[], [], fun _ ↦ rfl, .inl (Nat.dvd_zero _)⟩, fun hl ↦ ?_⟩
      cases hl
    · rintro s event t ⟨hs, hi, -⟩ ⟨hsound, hreset⟩ ht
      refine ⟨hs.step ht, hs.betweenReads_step hi ht, fun hl ↦ ?_⟩
      obtain ⟨hexit, he⟩ | hr | hf := hs.left_cases hi ht hl
      · unfold ExitEntered OverlongExit at hexit ⊢
        rwa [he]
      · exact absurd hr hreset
      · rw [hsound] at hf
        cases hf
  exact ⟨fun ho hl ↦ (hinv.2.2 hl).resolve_right ho, fun _ _ ↦ hinv.1.killed_iff⟩

/-- The events of a run in which nothing is read from clients or received over UDP. -/
def Event.writeFree : Event → Bool
  | datagram _ _ _ => false
  | client _ => false
  | event => event.sound

/-- The operator enters `exit` in two parts while a client is connected. -/
theorem left_only_by_exit_twoParts : ∃ s : State, s.clientName 5 = some [65] ∧
    s.place = .exited ∧ ExitEntered s.stdin := by
  have hrun : (exec (guarded (fun _ event ↦ event.writeFree) State.step) (State.initial 3 4)
      (joinRound 4 5 0 (simpleClient 65 [] []) ++ [.typed (ascii ['e', 'x']),
        .typed (ascii ['i', 't'] ++ [newline]), .poll (· == 0), .proceed])).any
      (fun s ↦ s.clientName 5 = some [65] ∧ s.place = .exited ∧
        completeLines s.stdin.entered = [exitLine]) = true := by decide +kernel
  obtain ⟨s, hs, hname, hplace, hlines⟩ := exists_exec hrun
  refine ⟨s, hname, hplace, (left_only_by_exit (reaches_of_guarded ?_ .refl hs)).1 ?_ ?_⟩
  · intro s event ht
    refine ⟨?_, Sessions.not_meetsReset fun fd client frame hw ↦ ?_⟩
    · cases event <;> first | exact ht | cases ht
    · cases hw <;> cases ht
  · rintro ⟨front, hf, -, hm⟩
    rw [hlines, List.mem_singleton] at hm
    exact hf (List.append_left_eq_self.mp hm)
  · rw [hplace]
    rfl

/-- Without a line `exit` the process can be killed, where a client closes its connection
before it is sent the second part of an acknowledgement, and it can leave its main loop
where a longer line ends in `exit`, of which the first 15 bytes come in front of the rest. -/
theorem left_without_exit :
    (∃ s, Reaches State.step (fun _ event ↦ event.sound = true) (State.initial 3 4) s ∧
      s.place = .killed ∧ s.place.left = true ∧ ¬ ExitEntered s.stdin) ∧
    ∃ s, Reaches State.step (fun _ event ↦ event.sound = true) (State.initial 3 4) s ∧
      s.place = .exited ∧ s.place.left = true ∧ ¬ ExitEntered s.stdin := by
  constructor
  · have hrun : (exec (guarded (fun _ event ↦ event.sound) State.step) (State.initial 3 4)
        (joinRound 4 5 0 (simpleClient 65 [simpleRequest 0 [97], .fin] [.sent 0, .reset]) ++
          visitRound 5 0 ++ [.client []])).any
        (fun s ↦ s.place = .killed ∧ exitLine ∉ completeLines s.stdin.entered) = true := by
      decide +kernel
    obtain ⟨s, hs, hplace, hlines⟩ := exists_exec hrun
    exact ⟨s, reaches_of_guarded (fun _ _ ↦ id) .refl hs, hplace, by rw [hplace]; rfl, hlines⟩
  · have hrun : (exec (guarded (fun _ event ↦ event.sound) State.step) (State.initial 3 4)
        [.typed (List.replicate 15 120), .poll (· == 0), .proceed, .proceed, .proceed, .proceed,
          .typed exitCommand, .poll (· == 0), .proceed]).any
        (fun s ↦ s.place = .exited ∧ exitLine ∉ completeLines s.stdin.entered) = true := by
      decide +kernel
    obtain ⟨s, hs, hplace, hlines⟩ := exists_exec hrun
    exact ⟨s, reaches_of_guarded (fun _ _ ↦ id) .refl hs, hplace, by rw [hplace]; rfl, hlines⟩

end Broker.Server
