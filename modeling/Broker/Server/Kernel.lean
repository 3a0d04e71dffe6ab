import Broker.Base.Resources
import Broker.Base.UnorderedMap
import Broker.Net.Socket

/-!
# The kernel's side of the server

The open connections behind the descriptors the server holds, and what has become of the
closed ones. A property of every connection, open or closed, is kept by an operation that
keeps it on the one connection it touches.
-/

namespace Broker.Server
open Broker.Base Broker.Net

/-- A file descriptor. -/
abbrev Fd := Nat

/-- The accepted connections by descriptor, and three histories: the closed connections in the
order of closing, the descriptors a send was attempted on while they were not open, and the calls
of `accept` and `close`, each with its descriptor. -/
structure Kernel where
  sockets : UnorderedMap Fd Socket
  archive : List Socket
  stray : List Fd
  uses : List (Use Fd)

namespace Kernel

/-- The open connection behind a descriptor. -/
def socket (kernel : Kernel) (fd : Fd) : Option Socket := UnorderedMap.find kernel.sockets fd

/-- A descriptor comes to stand for a connection. -/
def install (kernel : Kernel) (fd : Fd) (sock : Socket) : Kernel :=
  { kernel with sockets := UnorderedMap.set kernel.sockets fd sock }

/-- `accept` returns a descriptor for a connection. -/
def accept (kernel : Kernel) (fd : Fd) (sock : Socket) : Kernel :=
  { kernel.install fd sock with uses := kernel.uses ++ [.acquire fd] }

/-- `close(fd)`. The call counts whatever the descriptor stands for. -/
def close (kernel : Kernel) (fd : Fd) : Kernel :=
  let uses := kernel.uses ++ [.release fd]
  match kernel.socket fd with
  | some sock =>
    { kernel with
      sockets := UnorderedMap.erase kernel.sockets fd
      archive := kernel.archive ++ [sock]
      uses := uses }
  | none => { kernel with uses := uses }

/-- Change the history of an open connection. -/
def annotate (kernel : Kernel) (fd : Fd) (f : Socket → Socket) : Kernel :=
  match kernel.socket fd with
  | some sock => kernel.install fd (f sock)
  | none => kernel

/-- Write a frame to a descriptor; on one that is not open both sends fail. The flag
reports that the process was killed. -/
def sendFrame (kernel : Kernel) (fd : Fd) (client : Bytes) (frame : Frame) : Kernel × Bool :=
  match kernel.socket fd with
  | some sock =>
    let sent := sock.sendFrame client frame
    (kernel.install fd sent.1, sent.2)
  | none => ({ kernel with stray := kernel.stray ++ [fd] }, false)

/-- `recv(fd, …, size, MSG_DONTWAIT)`. -/
def recv (kernel : Kernel) (fd : Fd) (size : Nat) : RecvResult × Kernel :=
  match kernel.socket fd with
  | some sock =>
    let got := Base.recv size sock.inbox
    (got.1, kernel.install fd (sock.consume got.2))
  | none => (.error .badDescriptor, kernel)

/-- Every open connection answers sends by positive counts only. -/
def SendsSucceed (kernel : Kernel) : Prop :=
  ∀ fd sock, kernel.socket fd = some sock → Reliable sock.answers

@[simp] theorem socket_install (kernel : Kernel) (fd other : Fd) (sock : Socket) :
    (kernel.install fd sock).socket other =
      if fd = other then some sock else kernel.socket other :=
  UnorderedMap.find_set _ _ _ _

@[simp] theorem install_install (kernel : Kernel) (fd : Fd) (earlier later : Socket) :
    (kernel.install fd earlier).install fd later = kernel.install fd later := by
  unfold install
  rw [UnorderedMap.set_set]

@[simp] theorem archive_install (kernel : Kernel) (fd : Fd) (sock : Socket) :
    (kernel.install fd sock).archive = kernel.archive := rfl

@[simp] theorem uses_install (kernel : Kernel) (fd : Fd) (sock : Socket) :
    (kernel.install fd sock).uses = kernel.uses := rfl

@[simp] theorem socket_accept (kernel : Kernel) (fd other : Fd) (sock : Socket) :
    (kernel.accept fd sock).socket other =
      if fd = other then some sock else kernel.socket other :=
  socket_install kernel fd other sock

@[simp] theorem archive_accept (kernel : Kernel) (fd : Fd) (sock : Socket) :
    (kernel.accept fd sock).archive = kernel.archive := rfl

@[simp] theorem stray_accept (kernel : Kernel) (fd : Fd) (sock : Socket) :
    (kernel.accept fd sock).stray = kernel.stray := rfl

@[simp] theorem uses_accept (kernel : Kernel) (fd : Fd) (sock : Socket) :
    (kernel.accept fd sock).uses = kernel.uses ++ [.acquire fd] := rfl

/-- A closed descriptor stands for nothing any more; the others are as before. -/
@[simp] theorem socket_close (kernel : Kernel) (fd other : Fd) :
    (kernel.close fd).socket other = if fd = other then none else kernel.socket other := by
  unfold close
  split
  · exact UnorderedMap.find_erase _ _ _
  · next h =>
    split
    · next hf => exact hf ▸ h
    · rfl

@[simp] theorem stray_close (kernel : Kernel) (fd : Fd) :
    (kernel.close fd).stray = kernel.stray := by
  unfold close
  split <;> rfl

@[simp] theorem uses_close (kernel : Kernel) (fd : Fd) :
    (kernel.close fd).uses = kernel.uses ++ [.release fd] := by
  unfold close
  split <;> rfl

/-- Closing an open descriptor files its connection. -/
theorem archive_close {kernel : Kernel} {fd : Fd} {sock : Socket}
    (h : kernel.socket fd = some sock) : (kernel.close fd).archive = kernel.archive ++ [sock] := by
  rw [close, h]

/-- Changing the history of the connection just put in place is to put it there changed. -/
@[simp] theorem annotate_install (kernel : Kernel) (fd : Fd) (sock : Socket)
    (f : Socket → Socket) :
    (kernel.install fd sock).annotate fd f = kernel.install fd (f sock) := by
  rw [annotate, socket_install, if_pos rfl]
  exact install_install _ _ _ _

@[simp] theorem annotate_accept (kernel : Kernel) (fd : Fd) (sock : Socket)
    (f : Socket → Socket) :
    (kernel.accept fd sock).annotate fd f = kernel.accept fd (f sock) := by
  rw [annotate, socket_accept, if_pos rfl]
  exact congrArg (fun k : Kernel ↦ { k with uses := kernel.uses ++ [Use.acquire fd] })
    (install_install kernel fd sock (f sock))

/-- On an open descriptor a frame goes to the connection behind it. -/
theorem sendFrame_of_socket {kernel : Kernel} {fd : Fd} {sock : Socket}
    (h : kernel.socket fd = some sock) (client : Bytes) (frame : Frame) :
    kernel.sendFrame fd client frame =
      (kernel.install fd (sock.sendFrame client frame).1, (sock.sendFrame client frame).2) := by
  rw [sendFrame, h]

/-- A frame to the connection just put in place. -/
theorem sendFrame_install (kernel : Kernel) (fd : Fd) (sock : Socket) (client : Bytes)
    (frame : Frame) :
    (kernel.install fd sock).sendFrame fd client frame =
      (kernel.install fd (sock.sendFrame client frame).1, (sock.sendFrame client frame).2) := by
  rw [sendFrame_of_socket (by rw [socket_install, if_pos rfl]), install_install]

/-- Sending changes no other connection, and at its own only the answers and the log. -/
theorem socket_sendFrame (kernel : Kernel) (fd other : Fd) (client : Bytes) (frame : Frame) :
    (kernel.sendFrame fd client frame).1.socket other =
      if fd = other then (kernel.socket other).map fun sock ↦ (sock.sendFrame client frame).1
      else kernel.socket other := by
  unfold sendFrame
  split
  · next sock h =>
    rw [socket_install]
    split
    · next hf => rw [← hf, h]; rfl
    · rfl
  · next h =>
    split
    · next hf => rw [← hf, h]; exact h
    · rfl

@[simp] theorem archive_sendFrame (kernel : Kernel) (fd : Fd) (client : Bytes) (frame : Frame) :
    (kernel.sendFrame fd client frame).1.archive = kernel.archive := by
  unfold sendFrame
  split <;> rfl

@[simp] theorem uses_sendFrame (kernel : Kernel) (fd : Fd) (client : Bytes) (frame : Frame) :
    (kernel.sendFrame fd client frame).1.uses = kernel.uses := by
  unfold sendFrame
  split <;> rfl

/-! ### Writing to several recipients -/

/-- Write one frame to one recipient after the other until a send kills the process. -/
def sendEach (kernel : Kernel) (frame : Frame) : List (Bytes × Fd) → Kernel × Bool
  | [] => (kernel, false)
  | (client, fd) :: rest =>
    let sent := kernel.sendFrame fd client frame
    if sent.2 then (sent.1, true) else sent.1.sendEach frame rest

/-- What every single frame to a recipient keeps, all of them keep. -/
theorem sendEach_invariant {P : Kernel → Prop} {frame : Frame}
    {targets : List (Bytes × Fd)}
    (hstep : ∀ k client fd, (client, fd) ∈ targets → P k → P (k.sendFrame fd client frame).1)
    {kernel : Kernel} (h : P kernel) : P (kernel.sendEach frame targets).1 := by
  induction targets generalizing kernel with
  | nil => exact h
  | cons target targets ih =>
    rcases target with ⟨client, fd⟩
    have hs := hstep kernel client fd (by simp) h
    rw [sendEach]
    split
    · exact hs
    · exact ih (fun k c f hm ↦ hstep k c f (List.mem_cons_of_mem _ hm)) hs

/-- Sends succeed where no partial answer is prescribed. -/
theorem sendsSucceed_of_answers {kernel : Kernel}
    (h : ∀ entry ∈ kernel.sockets, entry.2.answers = []) : kernel.SendsSucceed := by
  intro fd sock hs
  rw [h _ (UnorderedMap.mem_of_find hs)]
  exact reliable_nil

/-- A frame to a descriptor kills the process exactly when the connection behind it has been
reset by the time of one of its sends. -/
theorem sendFrame_killed_iff (kernel : Kernel) (fd : Fd) (client : Bytes) (frame : Frame) :
    (kernel.sendFrame fd client frame).2 = true ↔
      ∃ sock, kernel.socket fd = some sock ∧ Socket.resetAhead frame sock.answers = true := by
  unfold sendFrame
  split
  · next sock hs => simp [hs, Socket.sendFrame_killed_iff]
  · next hs => simp [hs]

/-- Writing to several recipients with different connections kills the process exactly when
the frame meets a reset on one of them. -/
theorem sendEach_killed_iff (frame : Frame) {targets : List (Bytes × Fd)} (kernel : Kernel)
    (hn : (targets.map Prod.snd).Nodup) :
    (kernel.sendEach frame targets).2 = true ↔ ∃ client fd sock, (client, fd) ∈ targets ∧
      kernel.socket fd = some sock ∧ Socket.resetAhead frame sock.answers = true := by
  induction targets generalizing kernel with
  | nil => simp [sendEach]
  | cons target targets ih =>
    rcases target with ⟨client, fd⟩
    obtain ⟨hfresh, hn⟩ := List.nodup_cons.mp hn
    have hkill := kernel.sendFrame_killed_iff fd client frame
    rw [sendEach]
    split
    · next hk =>
      obtain ⟨sock, hs, ha⟩ := hkill.mp hk
      exact iff_of_true rfl ⟨client, fd, sock, List.mem_cons_self, hs, ha⟩
    · next hk =>
      -- The later recipients meet the connections as they were before the first frame.
      have hsame (name : Bytes) (other : Fd) (hm : (name, other) ∈ targets) :
          (kernel.sendFrame fd client frame).1.socket other = kernel.socket other := by
        rw [socket_sendFrame, if_neg]
        exact fun he ↦ hfresh (List.mem_map.mpr ⟨_, hm, he.symm⟩)
      rw [ih _ hn]
      constructor
      · rintro ⟨name, other, sock, hm, hs, ha⟩
        exact ⟨name, other, sock, List.mem_cons_of_mem _ hm, hsame name other hm ▸ hs, ha⟩
      · rintro ⟨name, other, sock, hm, hs, ha⟩
        obtain he | hm := List.mem_cons.mp hm
        · cases he
          exact absurd (hkill.mpr ⟨sock, hs, ha⟩) hk
        · exact ⟨name, other, sock, hm, (hsame name other hm).symm ▸ hs, ha⟩

/-- Writing to several recipients with different connections changes no other connection, and
is one attempt on each of these unless a send before it kills the process. -/
theorem socket_sendEach_cases (frame : Frame) {targets : List (Bytes × Fd)} (kernel : Kernel)
    (hn : (targets.map Prod.snd).Nodup) :
    (∀ fd, fd ∉ targets.map Prod.snd →
      (kernel.sendEach frame targets).1.socket fd = kernel.socket fd) ∧
    ∀ client fd, (client, fd) ∈ targets →
      (kernel.sendEach frame targets).1.socket fd =
        (kernel.socket fd).map (fun sock ↦ (sock.sendFrame client frame).1) ∨
      (kernel.sendEach frame targets).2 = true ∧
        (kernel.sendEach frame targets).1.socket fd = kernel.socket fd := by
  induction targets generalizing kernel with
  | nil => exact ⟨fun _ _ ↦ rfl, fun _ _ hm ↦ absurd hm List.not_mem_nil⟩
  | cons target targets ih =>
    rcases target with ⟨client, fd⟩
    obtain ⟨hfresh, hn⟩ := List.nodup_cons.mp hn
    have hfirst := kernel.socket_sendFrame fd
    -- The first frame goes to another connection than the later ones.
    have hne (name : Bytes) (other : Fd) (hm : (name, other) ∈ targets) : fd ≠ other :=
      fun he ↦ hfresh (List.mem_map.mpr ⟨_, hm, he.symm⟩)
    rw [sendEach]
    split
    · next hk =>
      refine ⟨fun other hnot ↦ ?_, fun name other hm ↦ ?_⟩
      · rw [hfirst, if_neg (Ne.symm (not_or.mp (List.mem_cons.not.mp hnot)).1)]
      · obtain hm | hm := List.mem_cons.mp hm
        · cases hm
          exact .inl (by rw [hfirst, if_pos rfl])
        · exact .inr ⟨rfl, by rw [hfirst, if_neg (hne name other hm)]⟩
    · next hk =>
      obtain ⟨hother, hgets⟩ := ih (kernel.sendFrame fd client frame).1 hn
      refine ⟨fun other hnot ↦ ?_, fun name other hm ↦ ?_⟩
      · obtain ⟨hnefd, hnot⟩ := not_or.mp (List.mem_cons.not.mp hnot)
        rw [hother other hnot, hfirst, if_neg (Ne.symm hnefd)]
      · obtain hm | hm := List.mem_cons.mp hm
        · cases hm
          exact .inl (by rw [hother fd hfresh, hfirst, if_pos rfl])
        · have hsame := hgets name other hm
          rwa [hfirst, if_neg (hne name other hm)] at hsame

/-- Writing to several recipients with different connections until the end is one attempt on
each of these connections, and changes no other one. -/
theorem socket_sendEach (frame : Frame) {targets : List (Bytes × Fd)} (kernel : Kernel)
    (hn : (targets.map Prod.snd).Nodup) (halive : (kernel.sendEach frame targets).2 = false) :
    (∀ fd, fd ∉ targets.map Prod.snd →
      (kernel.sendEach frame targets).1.socket fd = kernel.socket fd) ∧
    ∀ client fd, (client, fd) ∈ targets → (kernel.sendEach frame targets).1.socket fd =
      (kernel.socket fd).map fun sock ↦ (sock.sendFrame client frame).1 := by
  obtain ⟨hother, hgets⟩ := kernel.socket_sendEach_cases frame hn
  refine ⟨hother, fun client fd hm ↦ ?_⟩
  obtain hs | ⟨hk, -⟩ := hgets client fd hm
  · exact hs
  · rw [halive] at hk
    cases hk

/-- Writing to several recipients closes no connection. -/
theorem archive_sendEach (frame : Frame) (targets : List (Bytes × Fd)) (kernel : Kernel) :
    (kernel.sendEach frame targets).1.archive = kernel.archive :=
  sendEach_invariant (P := fun k ↦ k.archive = kernel.archive)
    (fun k client fd _ hk ↦ (archive_sendFrame k fd client frame).trans hk) rfl

/-- Writing to several recipients calls neither `accept` nor `close`. -/
theorem uses_sendEach (frame : Frame) (targets : List (Bytes × Fd)) (kernel : Kernel) :
    (kernel.sendEach frame targets).1.uses = kernel.uses :=
  sendEach_invariant (P := fun k ↦ k.uses = kernel.uses)
    (fun k client fd _ hk ↦ (uses_sendFrame k fd client frame).trans hk) rfl

/-- Where sends succeed, every one of several recipients with different open connections gets
the frame whole and once. -/
theorem sendEach_of_succeed (frame : Frame) {targets : List (Bytes × Fd)} {kernel : Kernel}
    (hr : kernel.SendsSucceed) (hn : (targets.map Prod.snd).Nodup)
    (ho : ∀ target ∈ targets, (kernel.socket target.2).isSome) :
    (kernel.sendEach frame targets).2 = false ∧
    ∀ client fd, (client, fd) ∈ targets → ∃ sock answers, kernel.socket fd = some sock ∧
      (kernel.sendEach frame targets).1.socket fd =
        some (sock.record ⟨client, frame, frame.encode⟩ answers) := by
  have halive : (kernel.sendEach frame targets).2 = false := by
    refine eq_false_of_ne_true fun hk ↦ ?_
    obtain ⟨client, fd, sock, hm, hs, ha⟩ := (kernel.sendEach_killed_iff frame hn).mp hk
    obtain ⟨answers, -, he⟩ := sock.sendFrame_of_reliable client frame (hr fd sock hs)
    have hkill := (sock.sendFrame_killed_iff client frame).mpr ha
    rw [he] at hkill
    cases hkill
  refine ⟨halive, fun client fd hm ↦ ?_⟩
  obtain ⟨sock, hs⟩ := Option.isSome_iff_exists.mp (ho (client, fd) hm)
  obtain ⟨answers, -, he⟩ := sock.sendFrame_of_reliable client frame (hr fd sock hs)
  refine ⟨sock, answers, hs, ?_⟩
  rw [(kernel.socket_sendEach frame hn halive).2 client fd hm, hs, Option.map_some, he]

/-- Sends that succeed go on to succeed. -/
theorem SendsSucceed.sendEach {kernel : Kernel} (h : kernel.SendsSucceed) (frame : Frame)
    (targets : List (Bytes × Fd)) : (kernel.sendEach frame targets).1.SendsSucceed := by
  refine sendEach_invariant (P := SendsSucceed) (fun k client fd _ hk other found hf ↦ ?_) h
  rw [socket_sendFrame] at hf
  split at hf
  · obtain ⟨sock, hs, rfl⟩ := Option.map_eq_some_iff.mp hf
    obtain ⟨answers, hr, he⟩ := sock.sendFrame_of_reliable client frame (hk other sock hs)
    rw [he]
    exact hr
  · exact hk other found hf

/-! ### Properties of every connection -/

/-- One property holds of every open connection and one of every closed connection. -/
def Connections (P Q : Socket → Prop) (kernel : Kernel) : Prop :=
  (∀ fd sock, kernel.socket fd = some sock → P sock) ∧ ∀ sock ∈ kernel.archive, Q sock

/-- A property holds of every connection, open or closed. -/
abbrev Every (P : Socket → Prop) (kernel : Kernel) : Prop := kernel.Connections P P

variable {P Q : Socket → Prop} {kernel : Kernel}

/-- The properties still hold once theirs holds of the connection that is put in place. -/
theorem Connections.install (h : kernel.Connections P Q) {sock : Socket} (fd : Fd)
    (hs : P sock) : (kernel.install fd sock).Connections P Q := by
  refine ⟨fun other found hf ↦ ?_, h.2⟩
  rw [socket_install] at hf
  split at hf
  · cases hf
    exact hs
  · exact h.1 other found hf

/-- Closing moves a connection to the closed ones. -/
theorem Connections.close (h : kernel.Connections P Q) {fd : Fd}
    (hq : ∀ sock, kernel.socket fd = some sock → Q sock) : (kernel.close fd).Connections P Q := by
  refine ⟨fun other found hf ↦ ?_, fun sock hm ↦ ?_⟩
  · rw [socket_close] at hf
    split at hf
    · cases hf
    · exact h.1 other found hf
  · unfold Kernel.close at hm
    split at hm
    · next found hf =>
      obtain ho | hn := List.mem_append.mp hm
      · exact h.2 sock ho
      · rw [List.mem_singleton.mp hn]
        exact hq found hf
    · exact h.2 sock hm

/-- The properties still hold once theirs holds of a connection that is accepted. -/
theorem Connections.accept (h : kernel.Connections P Q) {sock : Socket} (fd : Fd)
    (hs : P sock) : (kernel.accept fd sock).Connections P Q := h.install fd hs

private theorem Connections.close_of_replaced (h : kernel.Connections P Q) {later : Kernel}
    {fd : Fd} {sock : Socket}
    (hsocket : ∀ other, later.socket other = if fd = other then some sock else kernel.socket other)
    (harchive : later.archive = kernel.archive) (hq : Q sock) :
    (later.close fd).Connections P Q := by
  have hs : later.socket fd = some sock := by rw [hsocket, if_pos rfl]
  refine ⟨fun other found hf ↦ ?_, fun found hm ↦ ?_⟩
  · rw [socket_close] at hf
    split at hf
    · cases hf
    · next hn =>
      rw [hsocket, if_neg hn] at hf
      exact h.1 other found hf
  · rw [archive_close hs, harchive] at hm
    obtain ho | hn := List.mem_append.mp hm
    · exact h.2 found ho
    · exact (List.mem_singleton.mp hn) ▸ hq

theorem Connections.close_install (h : kernel.Connections P Q) {sock : Socket} (fd : Fd)
    (hq : Q sock) : ((kernel.install fd sock).close fd).Connections P Q :=
  h.close_of_replaced (fun other ↦ socket_install kernel fd other sock) rfl hq

theorem Connections.close_accept (h : kernel.Connections P Q) {sock : Socket} (fd : Fd)
    (hq : Q sock) : ((kernel.accept fd sock).close fd).Connections P Q :=
  h.close_of_replaced (fun other ↦ socket_accept kernel fd other sock) rfl hq

/-- A frame keeps what it keeps on the connection it is written to. -/
theorem Connections.sendFrame (h : kernel.Connections P Q) (fd : Fd) (client : Bytes)
    (frame : Frame)
    (hs : ∀ sock, kernel.socket fd = some sock → P sock → P (sock.sendFrame client frame).1) :
    (kernel.sendFrame fd client frame).1.Connections P Q := by
  unfold Kernel.sendFrame
  split
  · next sock hf => exact h.install fd (hs sock hf (h.1 fd sock hf))
  · exact h

/-- Writing to several recipients with different connections keeps what one attempt keeps on
each of these connections as they are at the start. -/
theorem Connections.sendEach (h : kernel.Connections P Q) {frame : Frame}
    {targets : List (Bytes × Fd)} (hn : (targets.map Prod.snd).Nodup)
    (hs : ∀ client fd sock, (client, fd) ∈ targets → kernel.socket fd = some sock →
      P (sock.sendFrame client frame).1) :
    (kernel.sendEach frame targets).1.Connections P Q := by
  induction targets generalizing kernel with
  | nil => exact h
  | cons target targets ih =>
    rcases target with ⟨client, fd⟩
    obtain ⟨hfresh, hn⟩ := List.nodup_cons.mp hn
    have hfirst := h.sendFrame fd client frame fun sock hf _ ↦ hs client fd sock (by simp) hf
    rw [Kernel.sendEach]
    split
    · exact hfirst
    · refine ih hfirst hn fun name other sock hm hf ↦ ?_
      have hne : fd ≠ other := fun he ↦ hfresh (List.mem_map.mpr ⟨_, hm, he.symm⟩)
      rw [socket_sendFrame, if_neg hne] at hf
      exact hs name other sock (List.mem_cons_of_mem _ hm) hf

end Kernel
end Broker.Server
