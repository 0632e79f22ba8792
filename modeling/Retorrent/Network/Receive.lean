import Retorrent.Peer.Recv
import Retorrent.Systems.Transition

/-!
# Receiving in the peer loop

The `select!` of `handle_peer` drops the `recv_message` future when a Have is
broadcast or ten seconds have passed. The bytes that the future has taken from the
socket go with it.
-/

namespace Retorrent

open Rust Systems

/-- The receiving side of a connection. `wire` has not arrived yet; `delivered`
records the messages that the loop got. -/
structure Receiver where
  wire : List UInt8
  socket : List UInt8
  recv : Recv
  delivered : List PeerMessage
  looping : Bool

inductive ReceiverEvent where
  | arrive (n : ℕ)
  | poll
  | broadcast (piece : UInt32)
  | timeout
  | stop

/-- One step of the network or of the loop. -/
inductive ReceiverStep : Receiver → ReceiverEvent → Receiver → Prop where
  | arrive {s : Receiver} {n : ℕ} :
      ReceiverStep s (.arrive n)
        { s with wire := s.wire.drop n, socket := s.socket ++ s.wire.take n }
  | pending {s : Receiver} {recv : Recv} {socket : List UInt8} :
      s.looping = true → s.recv.poll s.socket = (.pending recv, socket) →
      ReceiverStep s .poll { s with recv := recv, socket := socket }
  | deliver {s : Receiver} {m : PeerMessage} {socket : List UInt8} :
      s.looping = true → s.recv.poll s.socket = (.ready (.ok m), socket) →
      ReceiverStep s .poll
        { s with recv := .start, socket := socket, delivered := s.delivered ++ [m] }
  -- `recv error`: the loop is left
  | fail {s : Receiver} {e : TorrentError} {socket : List UInt8} :
      s.looping = true → s.recv.poll s.socket = (.ready (.err e), socket) →
      ReceiverStep s .poll { s with socket := socket, looping := false }
  -- the loop sends the Have and comes back to a new call
  | broadcast {s : Receiver} {piece : UInt32} : s.looping = true →
      ReceiverStep s (.broadcast piece) { s with recv := .start }
  | timeout {s : Receiver} : s.looping = true → ReceiverStep s .timeout { s with recv := .start }
  -- the channel of Haves is closed, or a message cannot be sent
  | stop {s : Receiver} : ReceiverStep s .stop { s with looping := false }

/-- A connection over which `sent` is sent. -/
structure Receiver.Initial (b : Build) (sent : List PeerMessage) (s : Receiver) : Prop where
  wire : PeerMessage.encodeAll b sent = .ok s.wire
  socket : s.socket = []
  recv : s.recv = .start
  delivered : s.delivered = []

def receivers (b : Build) (sent : List PeerMessage) : System Receiver ReceiverEvent where
  init := Receiver.Initial b sent
  step := ReceiverStep

/-- A future is dropped only before it has taken a byte. -/
def DropsNothing (s : Receiver) : ReceiverEvent → Prop
  | .broadcast _ | .timeout => s.recv = .start
  | .arrive _ | .poll | .stop => True

/-- While the loop runs, what was sent is what was delivered and what the bytes that
the future holds, the socket holds and the network holds stand for. -/
structure ReceiverInv (sent : List PeerMessage) (s : Receiver) : Prop where
  delivered : s.delivered <+: sent
  bytes : s.looping = true → s.recv.Waiting ∧ ∃ rest, sent = s.delivered ++ rest ∧
    s.recv.consumed ++ s.socket ++ s.wire = PeerMessage.stream rest

variable {b : Build} {sent : List PeerMessage} {s s' : Receiver}

theorem receiverInv_init (hsize : ∀ m ∈ sent, m.body.length < 2 ^ 32)
    (h : Receiver.Initial b sent s) : ReceiverInv sent s := by
  obtain ⟨hwire, hsocket, hrecv, hdelivered⟩ := h
  rw [PeerMessage.encodeAll_eq b hsize, Outcome.ok.injEq] at hwire
  constructor
  · rw [hdelivered]
    exact List.nil_prefix
  · intro _
    rw [hrecv, hsocket, hdelivered, ← hwire]
    exact ⟨Recv.waiting_start, sent, rfl, rfl⟩

/-- Polling delivers the message that comes next, if any. -/
theorem receiverInv_poll (hsize : ∀ m ∈ sent, m.body.length < 2 ^ 32) (h : ReceiverInv sent s)
    (hstep : ReceiverStep s .poll s') : ReceiverInv sent s' := by
  obtain ⟨hdelivered, hbytes⟩ := h
  cases hstep with
  | pending hloop hpoll =>
    obtain ⟨hwait, rest, hrest, hstream⟩ := hbytes hloop
    have hspec := Recv.poll_spec hwait s.socket
    rw [hpoll] at hspec
    cases hspec with
    | pending hwait' htaken =>
      refine ⟨hdelivered, fun _ => ⟨hwait', rest, hrest, ?_⟩⟩
      rw [htaken]
      exact hstream
  | deliver hloop hpoll =>
    obtain ⟨hwait, rest, hrest, hstream⟩ := hbytes hloop
    have hspec := Recv.poll_spec hwait s.socket
    rw [hpoll] at hspec
    cases hspec with
    | ready hlen htaken hanswer =>
      have hsize' : ∀ m ∈ rest, m.body.length < 2 ^ 32 := by
        intro m hm
        apply hsize
        rw [hrest]
        exact List.mem_append_right _ hm
      rw [← htaken, List.append_assoc] at hstream
      obtain ⟨tail, rfl, hrest'⟩ := Recv.answers_stream hsize' hlen hanswer hstream
      refine ⟨⟨tail, by rw [List.append_assoc, hrest]; rfl⟩, fun _ => ⟨Recv.waiting_start, tail,
        by rw [List.append_assoc, hrest]; rfl, hrest'⟩⟩
  | fail => exact ⟨hdelivered, fun hloop => by simp at hloop⟩

theorem receiverInv_step (hsize : ∀ m ∈ sent, m.body.length < 2 ^ 32) {e : ReceiverEvent}
    (h : ReceiverInv sent s) (hguard : DropsNothing s e) (hstep : ReceiverStep s e s') :
    ReceiverInv sent s' := by
  cases e with
  | poll => exact receiverInv_poll hsize h hstep
  | arrive n =>
    cases hstep
    refine ⟨h.delivered, fun hloop => ?_⟩
    obtain ⟨hwait, rest, hrest, hstream⟩ := h.bytes hloop
    refine ⟨hwait, rest, hrest, ?_⟩
    rw [← hstream]
    simp only [List.append_assoc, List.take_append_drop]
  | broadcast piece =>
    cases hstep
    exact ⟨h.delivered, hguard ▸ h.bytes⟩
  | timeout =>
    cases hstep
    exact ⟨h.delivered, hguard ▸ h.bytes⟩
  | stop =>
    cases hstep
    exact ⟨h.delivered, fun hloop => by simp at hloop⟩

/-- In every run that drops a future only before it has taken a byte, the loop gets
a prefix of what was sent. -/
theorem delivered_prefix_of_run {b : Build} {sent : List PeerMessage} {s : Receiver}
    (hsize : ∀ m ∈ sent, m.body.length < 2 ^ 32)
    (hs : (receivers b sent).Reachable DropsNothing s) : s.delivered <+: sent := by
  have hinv : (receivers b sent).Invariant DropsNothing (ReceiverInv sent) :=
    ⟨fun _ hinit => receiverInv_init hsize hinit,
      fun _ _ _ h hguard hstep => receiverInv_step hsize h hguard hstep⟩
  exact (hinv.reachable hs).delivered

section ChokeUnchoke

/-- A choke and an unchoke on their way. -/
def chokeUnchoke : Receiver where
  wire := [0, 0, 0, 1, 0, 0, 0, 0, 1, 1]
  socket := []
  recv := .start
  delivered := []
  looping := true

theorem chokeUnchoke_initial : chokeUnchoke.Initial .release [.choke, .unchoke] :=
  ⟨rfl, rfl, rfl, rfl⟩

/-- A Have is broadcast between the two messages. -/
theorem delivered_prefix_chokeUnchoke :
    ∃ s : Receiver, s.delivered = [.choke, .unchoke] ∧ s.delivered <+: [.choke, .unchoke] := by
  have harrive : ReceiverStep chokeUnchoke (.arrive 5)
      ⟨[0, 0, 0, 1, 1], [0, 0, 0, 1, 0], .start, [], true⟩ := .arrive
  have hchoke : ReceiverStep ⟨[0, 0, 0, 1, 1], [0, 0, 0, 1, 0], .start, [], true⟩ .poll
      ⟨[0, 0, 0, 1, 1], [], .start, [.choke], true⟩ := .deliver rfl rfl
  have hbroadcast : ReceiverStep ⟨[0, 0, 0, 1, 1], [], .start, [.choke], true⟩ (.broadcast 0)
      ⟨[0, 0, 0, 1, 1], [], .start, [.choke], true⟩ := .broadcast rfl
  have harrive' : ReceiverStep ⟨[0, 0, 0, 1, 1], [], .start, [.choke], true⟩ (.arrive 5)
      ⟨[], [0, 0, 0, 1, 1], .start, [.choke], true⟩ := .arrive
  have hunchoke : ReceiverStep ⟨[], [0, 0, 0, 1, 1], .start, [.choke], true⟩ .poll
      ⟨[], [], .start, [.choke, .unchoke], true⟩ := .deliver rfl rfl
  have hinit : (receivers .release [.choke, .unchoke]).Reachable DropsNothing chokeUnchoke :=
    .init chokeUnchoke_initial
  have hafter := hinit.step (e := ReceiverEvent.arrive 5) trivial harrive
  replace hafter := hafter.step (e := ReceiverEvent.poll) trivial hchoke
  replace hafter := hafter.step (e := ReceiverEvent.broadcast 0) rfl hbroadcast
  replace hafter := hafter.step (e := ReceiverEvent.arrive 5) trivial harrive'
  replace hafter := hafter.step (e := ReceiverEvent.poll) trivial hunchoke
  exact ⟨_, rfl, delivered_prefix_of_run (by decide) hafter⟩

/-- A Have is broadcast when the length prefix of the choke has been read: the rest
of the stream is read as a keep-alive. -/
theorem keepAlive_after_broadcast :
    ∃ s, (receivers .release [.choke, .unchoke]).Reachable System.unguarded s ∧
      s.delivered = [.keepAlive] ∧ ¬ s.delivered <+: [.choke, .unchoke] := by
  have harrive : ReceiverStep chokeUnchoke (.arrive 4)
      ⟨[0, 0, 0, 0, 1, 1], [0, 0, 0, 1], .start, [], true⟩ := .arrive
  have hlength : ReceiverStep ⟨[0, 0, 0, 0, 1, 1], [0, 0, 0, 1], .start, [], true⟩ .poll
      ⟨[0, 0, 0, 0, 1, 1], [], .readingPayload [0, 0, 0, 1] [], [], true⟩ := .pending rfl rfl
  have hbroadcast : ReceiverStep
      ⟨[0, 0, 0, 0, 1, 1], [], .readingPayload [0, 0, 0, 1] [], [], true⟩ (.broadcast 0)
      ⟨[0, 0, 0, 0, 1, 1], [], .start, [], true⟩ := .broadcast rfl
  have harrive' : ReceiverStep ⟨[0, 0, 0, 0, 1, 1], [], .start, [], true⟩ (.arrive 6)
      ⟨[], [0, 0, 0, 0, 1, 1], .start, [], true⟩ := .arrive
  have hpoll : ReceiverStep ⟨[], [0, 0, 0, 0, 1, 1], .start, [], true⟩ .poll
      ⟨[], [1, 1], .start, [.keepAlive], true⟩ := .deliver rfl rfl
  have hrun : (receivers .release [.choke, .unchoke]).Run chokeUnchoke
      [.arrive 4, .poll, .broadcast 0, .arrive 6, .poll] ⟨[], [1, 1], .start, [.keepAlive], true⟩ :=
    .cons harrive (.cons hlength (.cons hbroadcast (.cons harrive' (.cons hpoll .nil))))
  exact ⟨_, hrun.reachable (.init chokeUnchoke_initial), rfl, by decide⟩

end ChokeUnchoke

end Retorrent
